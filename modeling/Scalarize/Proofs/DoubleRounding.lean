import Mathlib

/-!
# Scalarize — rounding a number to a double

The doubles around a number are the multiples of one power of two: the one that leaves fifty-three
bits, but never less than the lowest exponent. The nearest double is found by counting in multiples
of that power and rounding to a whole count, a half going to the even one. From `2 ^ 1024` on
everything is rounded to `2 ^ 1024`, where infinity stands.

* **`roundMagnitude`** — the double nearest to a number that is not negative.
* **`nearestDouble`** — the double nearest to a number.
* **`nearestDouble_mono`** — rounding keeps the order.
* **`roundMagnitude_eq_self`** — doubles are kept.
* **`nearestDouble_lt_iff`** — decimals of up to fifteen digits stay apart.
-/

namespace Scalarize

/-! ## Rounding to a whole number -/

/-- The nearest whole number; a half goes to the even neighbour. -/
def roundEven (q : ℚ) : ℤ :=
  if q - ⌊q⌋ < 1 / 2 then ⌊q⌋
  else if q - ⌊q⌋ = 1 / 2 then ⌊q⌋ + ⌊q⌋ % 2
  else ⌊q⌋ + 1

theorem floor_le_roundEven (q : ℚ) : ⌊q⌋ ≤ roundEven q := by
  unfold roundEven
  split_ifs <;> omega

theorem roundEven_le_floor (q : ℚ) : roundEven q ≤ ⌊q⌋ + 1 := by
  unfold roundEven
  split_ifs <;> omega

theorem roundEven_intCast (n : ℤ) : roundEven n = n := by
  simp [roundEven]

theorem roundEven_mono : Monotone roundEven := by
  intro p q h
  rcases (Int.floor_mono h).lt_or_eq with hlt | heq
  · calc roundEven p ≤ ⌊p⌋ + 1 := roundEven_le_floor p
      _ ≤ ⌊q⌋ := hlt
      _ ≤ roundEven q := floor_le_roundEven q
  · unfold roundEven
    rw [heq]
    have hdiff : p - ⌊q⌋ ≤ q - ⌊q⌋ := sub_le_sub_right h _
    split_ifs <;> grind

theorem abs_roundEven_sub_le (q : ℚ) : |roundEven q - q| ≤ 1 / 2 := by
  have hfloor := Int.floor_le q
  have hlt := Int.lt_floor_add_one q
  unfold roundEven
  rw [abs_le]
  split_ifs with h₁ h₂
  · constructor <;> linarith
  · rcases Int.emod_two_eq_zero_or_one ⌊q⌋ with hmod | hmod <;> rw [hmod] <;> push_cast <;>
      constructor <;> linarith
  · push_cast
    constructor <;> linarith

/-! ## The grid of doubles -/

/-- The exponent of the last bit of a double near a number. -/
def gridExponent (q : ℚ) : ℤ :=
  max (Int.log 2 q - 52) (-1074)

/-- The double nearest to a number that is not negative. -/
def roundMagnitude (q : ℚ) : ℚ :=
  min (2 ^ 1024) (roundEven (q / 2 ^ gridExponent q) * 2 ^ gridExponent q)

theorem roundMagnitude_zero : roundMagnitude 0 = 0 := by
  simp [roundMagnitude, roundEven]

theorem roundMagnitude_le (q : ℚ) : roundMagnitude q ≤ 2 ^ 1024 :=
  min_le_left _ _

theorem le_gridExponent (q : ℚ) : -1074 ≤ gridExponent q :=
  le_max_right _ _

section

variable {p q : ℚ}

theorem gridExponent_mono (hp : 0 < p) (h : p ≤ q) : gridExponent p ≤ gridExponent q :=
  max_le_max_right _ (sub_le_sub_right (Int.log_mono_right hp h) _)

theorem lt_of_grid (hq : 0 < q) : q < 2 ^ 53 * 2 ^ gridExponent q := by
  have hlog : Int.log 2 q < 53 + gridExponent q := by
    unfold gridExponent
    omega
  have := (Int.lt_zpow_iff_log_lt (by norm_num) hq).mpr hlog
  rwa [Nat.cast_ofNat, zpow_add₀ (by norm_num), zpow_ofNat] at this

theorem le_of_grid (hq : 0 < q) (h : -1074 < gridExponent q) : 2 ^ 52 * 2 ^ gridExponent q ≤ q := by
  have hlog : 52 + gridExponent q ≤ Int.log 2 q := by
    unfold gridExponent at h ⊢
    omega
  have := (Int.zpow_le_iff_le_log (by norm_num) hq).mpr hlog
  rwa [Nat.cast_ofNat, zpow_add₀ (by norm_num), zpow_ofNat] at this

theorem roundEven_grid_le (hq : 0 < q) : roundEven (q / 2 ^ gridExponent q) ≤ 2 ^ 53 := by
  have h : q / 2 ^ gridExponent q ≤ ((2 ^ 53 : ℤ) : ℚ) := by
    rw [div_le_iff₀ (by positivity)]
    push_cast
    exact (lt_of_grid hq).le
  calc roundEven (q / 2 ^ gridExponent q) ≤ roundEven ((2 ^ 53 : ℤ) : ℚ) := roundEven_mono h
    _ = 2 ^ 53 := roundEven_intCast _

theorem le_roundEven_grid (hq : 0 < q) (h : -1074 < gridExponent q) :
    2 ^ 52 ≤ roundEven (q / 2 ^ gridExponent q) := by
  have h : ((2 ^ 52 : ℤ) : ℚ) ≤ q / 2 ^ gridExponent q := by
    rw [le_div_iff₀ (by positivity)]
    push_cast
    exact le_of_grid hq h
  calc 2 ^ 52 = roundEven ((2 ^ 52 : ℤ) : ℚ) := (roundEven_intCast _).symm
    _ ≤ roundEven (q / 2 ^ gridExponent q) := roundEven_mono h

/-- On one grid the order is that of the counts; a coarser grid starts where the finer one ends. -/
theorem roundMagnitude_mono (hp : 0 ≤ p) (h : p ≤ q) : roundMagnitude p ≤ roundMagnitude q := by
  refine min_le_min_left _ ?_
  rcases hp.eq_or_lt with rfl | hp
  · have hcount : 0 ≤ roundEven (q / 2 ^ gridExponent q) :=
      calc 0 = roundEven 0 := by simp [roundEven]
        _ ≤ roundEven (q / 2 ^ gridExponent q) := roundEven_mono (by positivity)
    have hcount' : (0 : ℚ) ≤ roundEven (q / 2 ^ gridExponent q) := by exact_mod_cast hcount
    have hzero : roundEven 0 = 0 := by simp [roundEven]
    rw [zero_div, hzero, Int.cast_zero, zero_mul]
    positivity
  have hq := hp.trans_le h
  rcases (gridExponent_mono hp h).lt_or_eq with hlt | heq
  · -- `2 ^ 53` steps of the finer grid are at most `2 ^ 52` steps of the coarser one
    have hgrid : -1074 < gridExponent q := (le_gridExponent p).trans_lt hlt
    have h₁ : (roundEven (p / 2 ^ gridExponent p) : ℚ) ≤ 2 ^ 53 := by
      exact_mod_cast roundEven_grid_le hp
    have h₂ : (2 ^ 52 : ℚ) ≤ roundEven (q / 2 ^ gridExponent q) := by
      exact_mod_cast le_roundEven_grid hq hgrid
    calc _ ≤ (2 : ℚ) ^ 53 * 2 ^ gridExponent p := by gcongr
      _ = 2 ^ 52 * 2 ^ (gridExponent p + 1) := by rw [zpow_add₀ (by norm_num)]; ring
      _ ≤ 2 ^ 52 * 2 ^ gridExponent q := by gcongr; norm_num; omega
      _ ≤ _ := by gcongr
  · rw [heq]
    have hcount : (roundEven (p / 2 ^ gridExponent q) : ℚ) ≤
        roundEven (q / 2 ^ gridExponent q) := by
      exact_mod_cast roundEven_mono (by gcongr)
    gcongr

end

/-! ## Numbers that are doubles, and the ends of the range -/

theorem gridExponent_le {k : ℕ} {e : ℤ} (hk : k < 2 ^ 53) (he : -1074 ≤ e) (hpos : 0 < k) :
    gridExponent (k * 2 ^ e) ≤ e := by
  have hlt : (k * 2 ^ e : ℚ) < 2 ^ (53 + e) := by
    rw [zpow_add₀ (by norm_num)]
    have : (k : ℚ) < 2 ^ (53 : ℤ) := by exact_mod_cast hk
    gcongr
  have hlog : Int.log 2 (k * 2 ^ e : ℚ) < 53 + e :=
    (Int.lt_zpow_iff_log_lt (by norm_num) (by positivity)).mp (by exact_mod_cast hlt)
  unfold gridExponent
  omega

/-- Doubles are kept. -/
theorem roundMagnitude_eq_self {k : ℕ} {e : ℤ} (hk : k < 2 ^ 53) (he : -1074 ≤ e)
    (hle : (k * 2 ^ e : ℚ) ≤ 2 ^ 1024) : roundMagnitude (k * 2 ^ e) = k * 2 ^ e := by
  rcases Nat.eq_zero_or_pos k with rfl | hpos
  · rw [Nat.cast_zero, zero_mul, roundMagnitude_zero]
  · obtain ⟨j, hj⟩ := Int.le.dest (gridExponent_le hk he hpos)
    have hgrid : (k * 2 ^ e : ℚ) = ((k * 2 ^ j : ℕ) : ℤ) * 2 ^ gridExponent (k * 2 ^ e) := by
      nth_rewrite 1 [← hj]
      rw [zpow_add₀ (by norm_num), zpow_natCast]
      push_cast
      ring
    have hwhole : (k * 2 ^ e : ℚ) / 2 ^ gridExponent (k * 2 ^ e) = ((k * 2 ^ j : ℕ) : ℤ) := by
      rw [div_eq_iff (by positivity), ← hgrid]
    unfold roundMagnitude
    rw [hwhole, roundEven_intCast, ← hgrid, min_eq_right hle]

theorem natCast_lt_top {n : ℕ} (hn : n < 2 ^ 53) : (n : ℚ) < 2 ^ 1024 := by
  exact_mod_cast hn.trans (Nat.pow_lt_pow_right (by norm_num) (by norm_num))

theorem roundMagnitude_natCast {n : ℕ} (hn : n < 2 ^ 53) : roundMagnitude n = n := by
  have hle : (n : ℚ) * 2 ^ (0 : ℤ) ≤ 2 ^ 1024 := by
    rw [zpow_zero, mul_one]
    exact (natCast_lt_top hn).le
  simpa using roundMagnitude_eq_self hn (by norm_num) hle

theorem roundMagnitude_of_large {q : ℚ} (h : 2 ^ 1024 ≤ q) : roundMagnitude q = 2 ^ 1024 := by
  refine le_antisymm (roundMagnitude_le q) ?_
  have htop : (2 : ℚ) ^ 1024 = (1 : ℕ) * 2 ^ (1024 : ℤ) := by norm_num
  calc (2 : ℚ) ^ 1024 = roundMagnitude (2 ^ 1024) := by
        rw [htop]
        exact (roundMagnitude_eq_self (by norm_num) (by norm_num) htop.ge).symm
    _ ≤ roundMagnitude q := roundMagnitude_mono (by positivity) h

/-- Half of the least double is rounded to zero. -/
theorem roundMagnitude_of_small {q : ℚ} (hq : 0 ≤ q) (h : q ≤ 2 ^ (-1075 : ℤ)) :
    roundMagnitude q = 0 := by
  have hgrid : gridExponent ((2 : ℚ) ^ (-1075 : ℤ)) = -1074 := by
    have hlog : Int.log 2 ((2 : ℚ) ^ (-1075 : ℤ)) < -1074 := by
      refine (Int.lt_zpow_iff_log_lt (by norm_num) (by positivity)).mp ?_
      exact_mod_cast zpow_lt_zpow_right₀ (by norm_num : (1 : ℚ) < 2)
        (by norm_num : (-1075 : ℤ) < -1074)
    unfold gridExponent
    omega
  have hhalf : (2 : ℚ) ^ (-1075 : ℤ) / 2 ^ (-1074 : ℤ) = 1 / 2 := by
    rw [← zpow_sub₀ (by norm_num)]
    norm_num
  have hround : roundMagnitude ((2 : ℚ) ^ (-1075 : ℤ)) = 0 := by
    have hcount : roundEven (1 / 2) = 0 := by norm_num [roundEven]
    unfold roundMagnitude
    rw [hgrid, hhalf, hcount, Int.cast_zero, zero_mul]
    exact min_eq_right (by positivity)
  refine le_antisymm ?_ ?_
  · exact (roundMagnitude_mono hq h).trans hround.le
  · exact roundMagnitude_zero.ge.trans (roundMagnitude_mono le_rfl hq)

/-! ## Numbers with a sign -/

/-- The double nearest to a number. -/
def nearestDouble (q : ℚ) : ℚ :=
  if q < 0 then -roundMagnitude (-q) else roundMagnitude q

theorem nearestDouble_of_nonneg {q : ℚ} (h : 0 ≤ q) : nearestDouble q = roundMagnitude q :=
  if_neg h.not_gt

theorem nearestDouble_zero : nearestDouble 0 = 0 :=
  (nearestDouble_of_nonneg le_rfl).trans roundMagnitude_zero

theorem nearestDouble_neg (q : ℚ) : nearestDouble (-q) = -nearestDouble q := by
  unfold nearestDouble
  rcases lt_trichotomy q 0 with h | rfl | h
  · rw [if_neg (by linarith), if_pos h, neg_neg]
  · simp [roundMagnitude_zero]
  · rw [if_pos (by linarith), if_neg (by linarith), neg_neg]

theorem roundMagnitude_nonneg {q : ℚ} (h : 0 ≤ q) : 0 ≤ roundMagnitude q :=
  roundMagnitude_zero.ge.trans (roundMagnitude_mono le_rfl h)

theorem abs_nearestDouble (q : ℚ) : |nearestDouble q| = roundMagnitude |q| := by
  rcases lt_or_ge q 0 with h | h
  · rw [nearestDouble, if_pos h, abs_neg, abs_of_neg h,
      abs_of_nonneg (roundMagnitude_nonneg (by linarith))]
  · rw [nearestDouble_of_nonneg h, abs_of_nonneg h, abs_of_nonneg (roundMagnitude_nonneg h)]

/-- Rounding keeps the order. -/
theorem nearestDouble_mono : Monotone nearestDouble := by
  intro p q h
  rcases le_or_gt 0 p with hp | hp
  · rw [nearestDouble_of_nonneg hp, nearestDouble_of_nonneg (hp.trans h)]
    exact roundMagnitude_mono hp h
  · have hleft : nearestDouble p = -roundMagnitude (-p) := if_pos hp
    rcases le_or_gt 0 q with hq | hq
    · rw [hleft, nearestDouble_of_nonneg hq]
      exact (neg_nonpos.mpr (roundMagnitude_nonneg (by linarith))).trans (roundMagnitude_nonneg hq)
    · have hright : nearestDouble q = -roundMagnitude (-q) := if_pos hq
      rw [hleft, hright]
      exact neg_le_neg (roundMagnitude_mono (by linarith) (by linarith))

/-! ## Short decimals -/

/-- Away from the ends of the range the error is at most one part in `2 ^ 53`. -/
theorem abs_roundMagnitude_sub_le {q : ℚ} (hlow : 2 ^ (-100 : ℤ) ≤ q) (hhigh : q ≤ 2 ^ 100) :
    |roundMagnitude q - q| ≤ q / 2 ^ 53 := by
  have hpos : 0 < q := lt_of_lt_of_le (by positivity) hlow
  have hlog : -100 ≤ Int.log 2 q :=
    (Int.zpow_le_iff_le_log (by norm_num) hpos).mp (by exact_mod_cast hlow)
  have hgrid : -1074 < gridExponent q := by
    unfold gridExponent
    omega
  have hstep := le_of_grid hpos hgrid
  have hunit : (0 : ℚ) < 2 ^ gridExponent q := by positivity
  have herror : |roundEven (q / 2 ^ gridExponent q) * 2 ^ gridExponent q - q| ≤ q / 2 ^ 53 := by
    have hsub : roundEven (q / 2 ^ gridExponent q) * 2 ^ gridExponent q - q =
        (roundEven (q / 2 ^ gridExponent q) - q / 2 ^ gridExponent q) * 2 ^ gridExponent q := by
      field_simp
    rw [hsub, abs_mul, abs_of_pos hunit]
    calc |roundEven (q / 2 ^ gridExponent q) - q / 2 ^ gridExponent q| * 2 ^ gridExponent q
        ≤ 1 / 2 * 2 ^ gridExponent q := by
          gcongr
          exact abs_roundEven_sub_le _
      _ ≤ q / 2 ^ 53 := by
          rw [le_div_iff₀ (by positivity)]
          linarith
  have htop : roundEven (q / 2 ^ gridExponent q) * 2 ^ gridExponent q ≤ (2 : ℚ) ^ 1024 :=
    calc (roundEven (q / 2 ^ gridExponent q) * 2 ^ gridExponent q : ℚ)
        ≤ q + q / 2 ^ 53 := sub_le_iff_le_add'.mp (abs_le.mp herror).2
      _ ≤ q + q := by gcongr; exact div_le_self hpos.le (one_le_pow₀ (by norm_num))
      _ ≤ 2 ^ 100 + 2 ^ 100 := by gcongr
      _ = 2 ^ 101 := by norm_num
      _ ≤ 2 ^ 1024 := pow_le_pow_right₀ (by norm_num) (by norm_num)
  unfold roundMagnitude
  rw [min_eq_right htop]
  exact herror

/-- Numbers with a notation of at most fifteen decimal digits. -/
def IsShortDecimal (q : ℚ) : Prop :=
  ∃ n k : ℕ, n < 10 ^ 15 ∧ k ≤ 15 ∧ |q| = n / 10 ^ k

namespace IsShortDecimal

theorem neg {q : ℚ} (h : IsShortDecimal q) : IsShortDecimal (-q) := by
  unfold IsShortDecimal
  rwa [abs_neg]

variable {p q : ℚ}

theorem extend (n : ℕ) {k d : ℕ} (h : k ≤ d) :
    (n : ℚ) / 10 ^ k = (n * 10 ^ (d - k) : ℕ) / 10 ^ d := by
  obtain ⟨j, rfl⟩ := Nat.exists_eq_add_of_le h
  rw [Nat.add_sub_cancel_left, pow_add]
  push_cast
  field_simp

/-- Two short decimals differ by more than the rounding can move them. With the same number of
places the lesser one still has at most fifteen digits. -/
theorem gap (hp : IsShortDecimal p) (hq : IsShortDecimal q) (hpos : 0 ≤ p) (h : p < q) :
    p * (1 + 1 / 10 ^ 15) < q := by
  obtain ⟨m, i, hm, -, hpm⟩ := hp
  obtain ⟨n, j, hn, -, hqn⟩ := hq
  rw [abs_of_nonneg hpos, extend m (le_max_left i j)] at hpm
  rw [abs_of_nonneg (hpos.trans h.le), extend n (le_max_right i j)] at hqn
  have hunit : (0 : ℚ) < 10 ^ max i j := by positivity
  have hlt : m * 10 ^ (max i j - i) < n * 10 ^ (max i j - j) := by
    rw [hpm, hqn, div_lt_div_iff_of_pos_right hunit] at h
    exact_mod_cast h
  have hshort : m * 10 ^ (max i j - i) < 10 ^ 15 := by
    -- one of the two has all the places already: the lesser one, or the greater one above it
    rcases max_choice i j with hmax | hmax <;> rw [hmax] at hlt ⊢ <;>
      rw [Nat.sub_self, pow_zero, mul_one] at *
    · exact hm
    · exact hlt.trans hn
  generalize m * 10 ^ (max i j - i) = a at *
  generalize n * 10 ^ (max i j - j) = b at *
  have hstep : (a : ℚ) + 1 ≤ b := by exact_mod_cast hlt
  have ha : (a : ℚ) < 10 ^ 15 := by exact_mod_cast hshort
  rw [hpm, hqn, lt_div_iff₀ hunit]
  have hfraction : (a : ℚ) / 10 ^ 15 < 1 := (div_lt_one (by positivity)).mpr ha
  calc (a : ℚ) / 10 ^ max i j * (1 + 1 / 10 ^ 15) * 10 ^ max i j = a + a / 10 ^ 15 := by
        field_simp
    _ < (b : ℚ) := by linarith

theorem bounds (h : IsShortDecimal q) (hpos : 0 < q) : 2 ^ (-100 : ℤ) ≤ q ∧ q ≤ 2 ^ 100 := by
  obtain ⟨n, k, hn, hk, hq⟩ := h
  rw [abs_of_pos hpos] at hq
  have hn' : (n : ℚ) ≤ 10 ^ 15 := by exact_mod_cast hn.le
  have hone : (1 : ℚ) ≤ n := by
    have : n ≠ 0 := by
      rintro rfl
      simp at hq
      exact hpos.ne' hq
    exact_mod_cast Nat.pos_of_ne_zero this
  constructor
  · calc (2 : ℚ) ^ (-100 : ℤ) ≤ 1 / 10 ^ 15 := by norm_num
      _ ≤ n / 10 ^ k := by gcongr; norm_num
      _ = q := hq.symm
  · calc q = n / 10 ^ k := hq
      _ ≤ n := div_le_self (by positivity) (one_le_pow₀ (by norm_num))
      _ ≤ 10 ^ 15 := hn'
      _ ≤ 2 ^ 100 := by norm_num

theorem roundMagnitude_lt (hp : IsShortDecimal p) (hq : IsShortDecimal q) (hpos : 0 ≤ p)
    (h : p < q) : roundMagnitude p < roundMagnitude q := by
  obtain ⟨hlow, hhigh⟩ := hq.bounds (hpos.trans_lt h)
  have herror := (abs_le.mp (abs_roundMagnitude_sub_le hlow hhigh)).1
  have hq' : q - q / 2 ^ 53 ≤ roundMagnitude q := by linarith
  have hp' : roundMagnitude p ≤ p + p / 2 ^ 53 := by
    rcases hpos.eq_or_lt with rfl | hpos'
    · simp [roundMagnitude_zero]
    · obtain ⟨hlow, hhigh⟩ := hp.bounds hpos'
      have := (abs_le.mp (abs_roundMagnitude_sub_le hlow hhigh)).2
      linarith
  have hgap := hp.gap hq hpos h
  refine hp'.trans_lt (lt_of_lt_of_le ?_ hq')
  linarith

theorem zero : IsShortDecimal 0 :=
  ⟨0, 0, by norm_num, by norm_num, by simp⟩

theorem nearestDouble_lt (hp : IsShortDecimal p) (hq : IsShortDecimal q) (h : p < q) :
    nearestDouble p < nearestDouble q := by
  rcases le_or_gt 0 p with hpos | hneg
  · rw [nearestDouble_of_nonneg hpos, nearestDouble_of_nonneg (hpos.trans h.le)]
    exact hp.roundMagnitude_lt hq hpos h
  · have hleft : nearestDouble p = -roundMagnitude (-p) := if_pos hneg
    rcases le_or_gt 0 q with hpos' | hneg'
    · have hbelow := zero.roundMagnitude_lt hp.neg le_rfl (by linarith)
      rw [roundMagnitude_zero] at hbelow
      rw [hleft, nearestDouble_of_nonneg hpos']
      exact (neg_neg_of_pos hbelow).trans_le (roundMagnitude_nonneg hpos')
    · have hright : nearestDouble q = -roundMagnitude (-q) := if_pos hneg'
      rw [hleft, hright]
      exact neg_lt_neg (hq.neg.roundMagnitude_lt hp.neg (by linarith) (by linarith))

/-- Rounding keeps short decimals apart. -/
theorem nearestDouble_lt_iff (hp : IsShortDecimal p) (hq : IsShortDecimal q) :
    nearestDouble p < nearestDouble q ↔ p < q :=
  ⟨fun h => lt_of_not_ge fun hle => h.not_ge (nearestDouble_mono hle), hp.nearestDouble_lt hq⟩

theorem nearestDouble_inj (hp : IsShortDecimal p) (hq : IsShortDecimal q) :
    nearestDouble p = nearestDouble q ↔ p = q := by
  have hlt := hp.nearestDouble_lt_iff hq
  have hgt := hq.nearestDouble_lt_iff hp
  rw [le_antisymm_iff, ← not_lt, ← not_lt, hlt, hgt, not_lt, not_lt, le_antisymm_iff]

theorem abs_nearestDouble_lt (h : IsShortDecimal q) : |nearestDouble q| < 2 ^ 1024 := by
  obtain ⟨n, k, hn, -, hq⟩ := h
  have hn' : n < 2 ^ 53 := hn.trans (by norm_num)
  have hle : |q| ≤ n := by
    rw [hq]
    exact div_le_self (by positivity) (one_le_pow₀ (by norm_num))
  calc |nearestDouble q| = roundMagnitude |q| := abs_nearestDouble q
    _ ≤ roundMagnitude n := roundMagnitude_mono (abs_nonneg q) hle
    _ = n := roundMagnitude_natCast hn'
    _ < 2 ^ 1024 := natCast_lt_top hn'

end IsShortDecimal

end Scalarize
