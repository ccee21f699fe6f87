/-
  Library/Rounding.lean --- rounding to nearest, ties to even.

  A binary format keeps `precision` significant digits and no digit below
  `2 ^ minExponent`, so that small numbers lose digits before they vanish; there is
  no largest number here.  What a computation with such numbers rests on is that
  rounding is monotone, that it fixes the numbers of the format, and that it moves a
  multiple of the least number by no more than its half unit in the last place,
  relatively.
-/
import Mathlib

set_option autoImplicit false

namespace TradeProcessor.Library

/-! ## To an integer -/

/-- The nearest integer, the even one of two. -/
def roundEven (x : ℚ) : Int :=
  if Int.fract x < 1 / 2 then ⌊x⌋
  else if 1 / 2 < Int.fract x then ⌊x⌋ + 1
  else if Even ⌊x⌋ then ⌊x⌋ else ⌊x⌋ + 1

theorem roundEven_eq_or (x : ℚ) : roundEven x = ⌊x⌋ ∨ roundEven x = ⌊x⌋ + 1 := by
  unfold roundEven
  split_ifs <;> simp

@[simp] theorem roundEven_intCast (n : Int) : roundEven n = n := by
  simp [roundEven]

theorem abs_roundEven_sub_le (x : ℚ) : |(roundEven x : ℚ) - x| ≤ 1 / 2 := by
  have hfloor := Int.floor_add_fract x
  have hnonneg := Int.fract_nonneg x
  have hlt := Int.fract_lt_one x
  rw [abs_le]
  unfold roundEven
  split_ifs <;> push_cast <;> constructor <;> linarith

theorem roundEven_mono {x y : ℚ} (h : x ≤ y) : roundEven x ≤ roundEven y := by
  rcases (Int.floor_le_floor h).lt_or_eq with hlt | heq
  · have hx := roundEven_eq_or x
    have hy := roundEven_eq_or y
    omega
  · have hfract : Int.fract x ≤ Int.fract y := by
      rw [Int.fract, Int.fract, heq]
      linarith
    unfold roundEven
    rw [heq]
    split_ifs <;> first | omega | (exfalso; linarith)

theorem roundEven_neg (x : ℚ) : roundEven (-x) = -roundEven x := by
  by_cases hint : Int.fract x = 0
  · obtain ⟨n, hn⟩ := Int.fract_eq_zero_iff.mp hint
    rw [← hn, roundEven_intCast, ← Int.cast_neg, roundEven_intCast]
  · have hfract : Int.fract (-x) = 1 - Int.fract x := Int.fract_neg hint
    have hfloor : ⌊-x⌋ = -⌊x⌋ - 1 := by
      have hx := Int.floor_add_fract x
      have hneg := Int.floor_add_fract (-x)
      have hcast : ((⌊-x⌋ : Int) : ℚ) = ((-⌊x⌋ - 1 : Int) : ℚ) := by
        push_cast
        linarith
      exact_mod_cast hcast
    have heven : Even (-⌊x⌋ - 1) ↔ ¬ Even ⌊x⌋ := by
      rw [← neg_add', even_neg, Int.even_add_one]
    unfold roundEven
    rw [hfract, hfloor]
    split_ifs <;> first | omega | (exfalso; linarith) | tauto

/-- An integer below is not passed. -/
theorem le_roundEven {n : Int} {x : ℚ} (h : (n : ℚ) ≤ x) : n ≤ roundEven x := by
  simpa using roundEven_mono h

theorem roundEven_le {n : Int} {x : ℚ} (h : x ≤ (n : ℚ)) : roundEven x ≤ n := by
  simpa using roundEven_mono h

/-! ## To a number of a format -/

/-- Numbers with so many significant binary digits, none of them below
`2 ^ minExponent`. -/
structure Format where
  precision : Nat
  minExponent : Int
  positive : 0 < precision

namespace Format

variable (F : Format)

/-- The exponent of the last digit of numbers as large as `x`. -/
def exponent (x : ℚ) : Int := max (Int.log 2 |x| + 1 - F.precision) F.minExponent

/-- The weight of the last digit. -/
def ulp (x : ℚ) : ℚ := 2 ^ F.exponent x

/-- The number of the format nearest to `x`. -/
def round (x : ℚ) : ℚ := roundEven (x / F.ulp x) * F.ulp x

/-- The largest relative error of a rounding. -/
def unit : ℚ := 2 ^ (-(F.precision : Int))

/-- A number of the format. -/
def Representable (x : ℚ) : Prop :=
  ∃ m e : Int, |m| ≤ 2 ^ F.precision ∧ F.minExponent ≤ e ∧ x = m * 2 ^ e

/-- A multiple of the least positive number of the format. -/
def OnGrid (x : ℚ) : Prop := ∃ m : Int, x = m * 2 ^ F.minExponent

variable {F}

theorem ulp_pos (x : ℚ) : 0 < F.ulp x := zpow_pos two_pos _

theorem unit_pos : 0 < F.unit := zpow_pos two_pos _

theorem unit_le_half : F.unit ≤ 1 / 2 := by
  have hle : -(F.precision : Int) ≤ -1 := by
    have := F.positive
    omega
  calc F.unit ≤ 2 ^ (-1 : Int) := zpow_le_zpow_right₀ one_le_two hle
    _ = 1 / 2 := by norm_num

theorem ulp_neg (x : ℚ) : F.ulp (-x) = F.ulp x := by
  simp only [ulp, exponent, abs_neg]

theorem round_neg (x : ℚ) : F.round (-x) = -F.round x := by
  rw [round, round, ulp_neg, neg_div, roundEven_neg, Int.cast_neg, neg_mul]

@[simp] theorem round_zero : F.round 0 = 0 := by
  have hzero : roundEven 0 = 0 := roundEven_intCast 0
  rw [round, zero_div, hzero, Int.cast_zero, zero_mul]

/-- A rounding moves a number by no more than half a unit in its last place. -/
theorem abs_round_sub_le (x : ℚ) : |F.round x - x| ≤ F.ulp x / 2 := by
  have hne := (ulp_pos (F := F) x).ne'
  calc |F.round x - x| = |(roundEven (x / F.ulp x) - x / F.ulp x) * F.ulp x| := by
        rw [sub_mul, div_mul_cancel₀ x hne, round]
    _ = |roundEven (x / F.ulp x) - x / F.ulp x| * F.ulp x := by
        rw [abs_mul, abs_of_pos (ulp_pos x)]
    _ ≤ 1 / 2 * F.ulp x := mul_le_mul_of_nonneg_right (abs_roundEven_sub_le _) (ulp_pos x).le
    _ = F.ulp x / 2 := by ring

/-- A number that is a whole number of its units is not moved. -/
theorem round_of_ulp_dvd {x : ℚ} {m : Int} (h : x = m * F.ulp x) : F.round x = x := by
  have hquot : x / F.ulp x = m := by
    rw [div_eq_iff (ulp_pos x).ne']
    exact h
  rw [round, hquot, roundEven_intCast]
  exact h.symm

/-- A multiple of a power of two is one of every smaller power. -/
theorem zpow_multiple {e e' : Int} (h : e' ≤ e) (m : Int) :
    ∃ n : Int, (m : ℚ) * 2 ^ e = n * 2 ^ e' := by
  obtain ⟨d, rfl⟩ := Int.le.dest h
  refine ⟨m * 2 ^ d, ?_⟩
  rw [zpow_add₀ two_ne_zero, zpow_natCast]
  push_cast
  ring

theorem exponent_of_normal {x : ℚ} (h : F.minExponent ≤ Int.log 2 |x| + 1 - F.precision) :
    F.exponent x = Int.log 2 |x| + 1 - F.precision := max_eq_left h

theorem exponent_of_small {x : ℚ} (h : Int.log 2 |x| + 1 - F.precision ≤ F.minExponent) :
    F.exponent x = F.minExponent := max_eq_right h

/-- Half a unit in the last place of a number with all its digits. -/
theorem half_ulp_le {x : ℚ} (hx : x ≠ 0)
    (h : F.minExponent ≤ Int.log 2 |x| + 1 - F.precision) : F.ulp x / 2 ≤ F.unit * |x| := by
  have hlog := Int.zpow_log_le_self (R := ℚ) one_lt_two (abs_pos.mpr hx)
  push_cast at hlog
  calc F.ulp x / 2 = F.unit * 2 ^ Int.log 2 |x| := by
        rw [ulp, exponent_of_normal h, unit, ← zpow_add₀ two_ne_zero, div_eq_iff two_ne_zero,
          ← zpow_add_one₀ two_ne_zero]
        congr 1
        ring
    _ ≤ F.unit * |x| := mul_le_mul_of_nonneg_left hlog unit_pos.le

/-- The relative error of a rounding, for numbers with all their digits. -/
theorem abs_round_sub_le_of_normal {x : ℚ}
    (h : 2 ^ (F.minExponent + F.precision - 1) ≤ |x|) : |F.round x - x| ≤ F.unit * |x| := by
  have hpos : 0 < |x| := (zpow_pos two_pos _).trans_le h
  refine (abs_round_sub_le x).trans (half_ulp_le (abs_pos.mp hpos) ?_)
  have hiff := Int.zpow_le_iff_le_log (R := ℚ) one_lt_two (x := F.minExponent + F.precision - 1)
    hpos
  have hlog := hiff.mp (by exact_mod_cast h)
  omega

/-- The relative error of a rounding, for multiples of the least number. -/
theorem abs_round_sub_le_of_onGrid {x : ℚ} (hx : F.OnGrid x) :
    |F.round x - x| ≤ F.unit * |x| := by
  rcases eq_or_ne x 0 with rfl | hne
  · simp
  · rcases le_total F.minExponent (Int.log 2 |x| + 1 - F.precision) with hnormal | hsmall
    · exact (abs_round_sub_le x).trans (half_ulp_le hne hnormal)
    · -- below the digits of the format there is nothing to lose
      obtain ⟨m, hm⟩ := hx
      have hround : F.round x = x := by
        apply round_of_ulp_dvd (m := m)
        rw [ulp, exponent_of_small hsmall]
        exact hm
      rw [hround, sub_self, abs_zero]
      exact mul_nonneg unit_pos.le (abs_nonneg x)

/-! ### The grid -/

theorem onGrid_intCast (h : F.minExponent ≤ 0) (n : Int) : F.OnGrid n := by
  obtain ⟨m, hm⟩ := zpow_multiple h n
  exact ⟨m, by rw [← hm, zpow_zero, mul_one]⟩

theorem OnGrid.add {x y : ℚ} (hx : F.OnGrid x) (hy : F.OnGrid y) : F.OnGrid (x + y) := by
  obtain ⟨m, rfl⟩ := hx
  obtain ⟨n, rfl⟩ := hy
  exact ⟨m + n, by push_cast; ring⟩

theorem OnGrid.neg {x : ℚ} (hx : F.OnGrid x) : F.OnGrid (-x) := by
  obtain ⟨m, rfl⟩ := hx
  exact ⟨-m, by push_cast; ring⟩

theorem OnGrid.sub {x y : ℚ} (hx : F.OnGrid x) (hy : F.OnGrid y) : F.OnGrid (x - y) := by
  rw [sub_eq_add_neg]
  exact hx.add hy.neg

theorem onGrid_round (x : ℚ) : F.OnGrid (F.round x) :=
  zpow_multiple (le_max_right _ _) (roundEven (x / F.ulp x))

theorem Representable.onGrid {x : ℚ} (h : F.Representable x) : F.OnGrid x := by
  obtain ⟨m, e, _, he, rfl⟩ := h
  exact zpow_multiple he m

/-! ### Monotonicity -/

theorem abs_lt_exponent (x : ℚ) : |x| < 2 ^ F.precision * F.ulp x := by
  have hlog := Int.lt_zpow_succ_log_self (R := ℚ) one_lt_two |x|
  push_cast at hlog
  refine hlog.trans_le ?_
  rw [ulp, ← zpow_natCast, ← zpow_add₀ two_ne_zero]
  apply zpow_le_zpow_right₀ one_le_two
  have := le_max_left (Int.log 2 |x| + 1 - F.precision) F.minExponent
  rw [exponent]
  omega

theorem exponent_mono {x y : ℚ} (hx : 0 < x) (h : x ≤ y) : F.exponent x ≤ F.exponent y := by
  rw [exponent, exponent, abs_of_pos hx, abs_of_pos (hx.trans_le h)]
  have := Int.log_mono_right (b := 2) hx h
  omega

/-- Numbers with a larger last digit are at least a whole mantissa of it. -/
theorem le_of_exponent_lt {x y : ℚ} (hy : 0 < y) (h : F.exponent x < F.exponent y) :
    2 ^ (F.precision - 1) * F.ulp y ≤ y := by
  have hnormal : F.exponent y = Int.log 2 |y| + 1 - F.precision := by
    have := le_max_right (Int.log 2 |x| + 1 - F.precision) F.minExponent
    unfold exponent at h ⊢
    omega
  have hlog := Int.zpow_log_le_self (R := ℚ) one_lt_two hy
  push_cast at hlog
  refine le_trans (le_of_eq ?_) hlog
  rw [ulp, hnormal, abs_of_pos hy, ← zpow_natCast, ← zpow_add₀ two_ne_zero]
  congr 1
  have := F.positive
  omega

theorem round_nonneg {x : ℚ} (hx : 0 ≤ x) : 0 ≤ F.round x := by
  have hquot : ((0 : Int) : ℚ) ≤ x / F.ulp x := by
    rw [Int.cast_zero]
    exact div_nonneg hx (ulp_pos x).le
  exact mul_nonneg (by exact_mod_cast le_roundEven hquot) (ulp_pos x).le

theorem round_mono_of_pos {x y : ℚ} (hx : 0 < x) (h : x ≤ y) : F.round x ≤ F.round y := by
  have hy := hx.trans_le h
  rcases (exponent_mono (F := F) hx h).eq_or_lt with heq | hlt
  · have hulp : F.ulp x = F.ulp y := by rw [ulp, ulp, heq]
    rw [round, round, hulp]
    apply mul_le_mul_of_nonneg_right _ (ulp_pos y).le
    exact_mod_cast roundEven_mono (div_le_div_of_nonneg_right h (ulp_pos y).le)
  · -- the least mantissa at the last digit of `y` lies between
    have hup : F.round x ≤ 2 ^ F.precision * F.ulp x := by
      rw [round]
      apply mul_le_mul_of_nonneg_right _ (ulp_pos x).le
      have hquot : x / F.ulp x ≤ ((2 ^ F.precision : Int) : ℚ) := by
        rw [div_le_iff₀ (ulp_pos x)]
        push_cast
        exact (le_abs_self x).trans (abs_lt_exponent x).le
      exact_mod_cast roundEven_le hquot
    have hmid : 2 ^ F.precision * F.ulp x ≤ 2 ^ (F.precision - 1) * F.ulp y := by
      rw [ulp, ulp, ← zpow_natCast, ← zpow_natCast, ← zpow_add₀ two_ne_zero,
        ← zpow_add₀ two_ne_zero]
      apply zpow_le_zpow_right₀ one_le_two
      have := F.positive
      omega
    have hdown : 2 ^ (F.precision - 1) * F.ulp y ≤ F.round y := by
      rw [round]
      apply mul_le_mul_of_nonneg_right _ (ulp_pos y).le
      have hquot : ((2 ^ (F.precision - 1) : Int) : ℚ) ≤ y / F.ulp y := by
        rw [le_div_iff₀ (ulp_pos y)]
        push_cast
        exact le_of_exponent_lt hy hlt
      exact_mod_cast le_roundEven hquot
    exact hup.trans (hmid.trans hdown)

/-- Rounding is monotone. -/
theorem round_mono {x y : ℚ} (h : x ≤ y) : F.round x ≤ F.round y := by
  rcases lt_trichotomy x 0 with hx | rfl | hx
  · rcases lt_or_ge y 0 with hy | hy
    · have hneg := round_mono_of_pos (F := F) (neg_pos.mpr hy) (neg_le_neg h)
      rw [round_neg, round_neg] at hneg
      exact neg_le_neg_iff.mp hneg
    · have hneg := round_nonneg (F := F) (neg_nonneg.mpr hx.le)
      rw [round_neg] at hneg
      exact (neg_nonneg.mp hneg).trans (round_nonneg hy)
  · rw [round_zero]
    exact round_nonneg h
  · exact round_mono_of_pos hx h

theorem abs_round (x : ℚ) : |F.round x| = F.round |x| := by
  rcases le_total 0 x with hx | hx
  · rw [abs_of_nonneg hx, abs_of_nonneg (round_nonneg hx)]
  · have hneg := round_nonneg (F := F) (neg_nonneg.mpr hx)
    rw [abs_of_nonpos hx, ← abs_neg, ← round_neg, abs_of_nonneg hneg]

/-! ### The numbers of the format -/

/-- Rounding fixes the numbers of the format. -/
theorem round_of_representable {x : ℚ} (h : F.Representable x) : F.round x = x := by
  obtain ⟨m, e, hm, he, hx⟩ := h
  by_cases hzero : x = 0
  · rw [hzero, round_zero]
  by_cases hfull : |m| = 2 ^ F.precision
  · -- one digit more, and the mantissa is the least one
    have hlog : Int.log 2 |x| = e + F.precision := by
      have habs : |x| = 2 ^ (e + F.precision) := by
        have hcast : |(m : ℚ)| = 2 ^ F.precision := by exact_mod_cast hfull
        rw [hx, abs_mul, hcast, abs_of_pos (zpow_pos two_pos e), ← zpow_natCast,
          ← zpow_add₀ two_ne_zero]
        congr 1
        ring
      rw [habs]
      exact_mod_cast Int.log_zpow (R := ℚ) one_lt_two (e + F.precision)
    obtain ⟨n, hn⟩ : ∃ n : Int, m = n * 2 := by
      have hdvd : (2 : Int) ∣ m := by
        rw [← dvd_abs, hfull]
        exact dvd_pow_self 2 F.positive.ne'
      obtain ⟨n, hn⟩ := hdvd
      exact ⟨n, by rw [hn, mul_comm]⟩
    apply round_of_ulp_dvd (m := n)
    have hexp : F.exponent x = e + 1 := by
      rw [exponent, hlog, max_eq_left (by omega)]
      ring
    rw [ulp, hexp, zpow_add_one₀ two_ne_zero, hx, hn]
    push_cast
    ring
  · have hlt : |m| < 2 ^ F.precision := lt_of_le_of_ne hm hfull
    have hle : F.exponent x ≤ e := by
      have habs : |x| < 2 ^ (e + F.precision) := by
        have hcast : |(m : ℚ)| < 2 ^ F.precision := by exact_mod_cast hlt
        have hpow : (0 : ℚ) < 2 ^ e := zpow_pos two_pos e
        rw [hx, abs_mul, abs_of_pos hpow, zpow_add₀ two_ne_zero, zpow_natCast, mul_comm (2 ^ e)]
        exact mul_lt_mul_of_pos_right hcast hpow
      have hlog : Int.log 2 |x| < e + F.precision := by
        have hiff := Int.lt_zpow_iff_log_lt (R := ℚ) one_lt_two (x := e + F.precision)
          (abs_pos.mpr hzero)
        exact hiff.mp (by exact_mod_cast habs)
      rw [exponent]
      omega
    obtain ⟨n, hn⟩ := zpow_multiple hle m
    apply round_of_ulp_dvd (m := n)
    rw [ulp, ← hn]
    exact hx

/-- Whole numbers with few digits are numbers of the format. -/
theorem representable_intCast (h : F.minExponent ≤ 0) {n : Int} (hn : |n| ≤ 2 ^ F.precision) :
    F.Representable n :=
  ⟨n, 0, hn, h, by rw [zpow_zero, mul_one]⟩

/-! ### Signs -/

theorem round_pos {x : ℚ} (hx : F.OnGrid x) (hpos : 0 < x) : 0 < F.round x := by
  have herror := abs_le.mp (abs_round_sub_le_of_onGrid hx)
  have hunit := unit_le_half (F := F)
  rw [abs_of_pos hpos] at herror
  nlinarith

/-- A rounding has the sign of the number, if this is a multiple of the least one. -/
theorem round_pos_iff {x : ℚ} (hx : F.OnGrid x) : 0 < F.round x ↔ 0 < x := by
  refine ⟨fun h => ?_, round_pos hx⟩
  by_contra hle
  have hneg := round_mono (F := F) (not_lt.mp hle)
  rw [round_zero] at hneg
  exact absurd h (not_lt.mpr hneg)

theorem round_neg_iff {x : ℚ} (hx : F.OnGrid x) : F.round x < 0 ↔ x < 0 := by
  have h := round_pos_iff hx.neg
  rwa [round_neg, neg_pos, neg_pos] at h

theorem round_eq_zero_iff {x : ℚ} (hx : F.OnGrid x) : F.round x = 0 ↔ x = 0 := by
  refine ⟨fun h => ?_, fun h => by rw [h, round_zero]⟩
  rcases lt_trichotomy x 0 with hneg | hzero | hpos
  · exact absurd h ((round_neg_iff hx).mpr hneg).ne
  · exact hzero
  · exact absurd h (round_pos hx hpos).ne'

end Format

end TradeProcessor.Library
