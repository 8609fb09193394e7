import Mathlib.Algebra.Order.Field.Power
import Mathlib.Data.Int.Log
import Mathlib.Data.Rat.Floor
import Mathlib.Tactic.NormNum

/-!
# Arithmetic in double precision

A finite double is a rational number. An operation rounds its exact result to the nearest
double, and a tie to the even one. Overflow to an infinity is left out: the lemmas are for
programs whose values stay bounded. Rounding does not cross a power of two
(`pow_le_nearest`, `nearest_le_pow`), which is all that a bound on a running average takes.
-/

namespace Binary64

/-! ## Rounding -/

/-- The nearest integer, and of two the even one. -/
def roundEven (y : ℚ) : ℤ :=
  if y - ⌊y⌋ < 1 / 2 then ⌊y⌋
  else if 1 / 2 < y - ⌊y⌋ then ⌊y⌋ + 1
  else if ⌊y⌋ % 2 = 0 then ⌊y⌋
  else ⌊y⌋ + 1

/-- The exponent of the last of the 53 bits of a double near `x`. -/
def ulpExponent (x : ℚ) : ℤ := max (Int.log 2 |x| - 52) (-1074)

/-- The nearest double. -/
def nearest (x : ℚ) : ℚ := roundEven (x / 2 ^ ulpExponent x) * 2 ^ ulpExponent x

def add (x y : ℚ) : ℚ := nearest (x + y)

def sub (x y : ℚ) : ℚ := nearest (x - y)

def mul (x y : ℚ) : ℚ := nearest (x * y)

def div (x y : ℚ) : ℚ := nearest (x / y)

/-! ## Bounds -/

section Bounds

variable {x y : ℚ} {n k : ℤ}

theorem floor_le_roundEven : ⌊y⌋ ≤ roundEven y := by
  unfold roundEven
  split
  · exact le_refl _
  · split
    · exact Int.le_of_lt (Int.lt_succ _)
    · split
      · exact le_refl _
      · exact Int.le_of_lt (Int.lt_succ _)

theorem roundEven_le (h : y ≤ k) : roundEven y ≤ k := by
  have hfloor : ⌊y⌋ ≤ k := by exact_mod_cast (Int.floor_le y).trans h
  rcases hfloor.lt_or_eq with hlt | heq
  · have hsucc : ⌊y⌋ + 1 ≤ k := hlt
    unfold roundEven
    split
    · exact hfloor
    · split
      · exact hsucc
      · split
        · exact hfloor
        · exact hsucc
  · -- `y` is the integer `k`
    have hle : y - ⌊y⌋ ≤ 0 := by
      rw [heq]
      exact sub_nonpos.mpr h
    unfold roundEven
    rw [if_pos (lt_of_le_of_lt hle (by norm_num))]
    exact hfloor

theorem ulp_pos : (0 : ℚ) < 2 ^ ulpExponent x := zpow_pos (by norm_num) _

/-- A multiple of the last place that is not above `x` is not above the nearest double. -/
theorem le_nearest (h : k * 2 ^ ulpExponent x ≤ x) : k * 2 ^ ulpExponent x ≤ nearest x := by
  have hk : k ≤ ⌊x / 2 ^ ulpExponent x⌋ := Int.le_floor.mpr ((le_div_iff₀ ulp_pos).mpr h)
  refine mul_le_mul_of_nonneg_right ?_ ulp_pos.le
  exact_mod_cast hk.trans floor_le_roundEven

theorem nearest_le (h : x ≤ k * 2 ^ ulpExponent x) : nearest x ≤ k * 2 ^ ulpExponent x := by
  refine mul_le_mul_of_nonneg_right ?_ ulp_pos.le
  exact_mod_cast roundEven_le ((div_le_iff₀ ulp_pos).mpr h)

theorem nearest_nonneg (h : 0 ≤ x) : 0 ≤ nearest x := by
  have hzero := le_nearest (x := x) (k := 0) (by simpa using h)
  simpa using hzero

theorem nearest_zero : nearest 0 = 0 := by
  refine le_antisymm ?_ (nearest_nonneg (le_refl _))
  have hzero := nearest_le (x := 0) (k := 0) (by simp)
  simpa using hzero

/-- A power of two from the last place on is a multiple of it. -/
theorem pow_eq_mul_ulp (h : ulpExponent x ≤ n) :
    (2 : ℚ) ^ n = ((2 ^ (n - ulpExponent x).toNat : ℤ) : ℚ) * 2 ^ ulpExponent x := by
  have hsub : ((n - ulpExponent x).toNat : ℤ) = n - ulpExponent x :=
    Int.toNat_of_nonneg (sub_nonneg.mpr h)
  rw [Int.cast_pow, Int.cast_ofNat, ← zpow_natCast, hsub, ← zpow_add₀ (by norm_num), sub_add_cancel]

/-- Rounding does not fall below a power of two. -/
theorem pow_le_nearest (hn : -1074 ≤ n) (h : 2 ^ n ≤ x) : 2 ^ n ≤ nearest x := by
  have hx : 0 < x := (zpow_pos (by norm_num) n).trans_le h
  rcases le_or_gt (ulpExponent x) n with hle | hlt
  · rw [pow_eq_mul_ulp hle] at h ⊢
    exact le_nearest h
  · -- the last place is above the power, and below the first place of `x`
    have hlog : ulpExponent x ≤ Int.log 2 x := by
      unfold ulpExponent at hlt ⊢
      rw [abs_of_pos hx] at hlt ⊢
      omega
    have hulp : ((1 : ℤ) : ℚ) * 2 ^ ulpExponent x ≤ x := by
      rw [Int.cast_one, one_mul]
      exact (zpow_le_zpow_right₀ (by norm_num) hlog).trans
        (by exact_mod_cast Int.zpow_log_le_self (by norm_num) hx)
    calc (2 : ℚ) ^ n ≤ 2 ^ ulpExponent x := zpow_le_zpow_right₀ (by norm_num) hlt.le
      _ = ((1 : ℤ) : ℚ) * 2 ^ ulpExponent x := by rw [Int.cast_one, one_mul]
      _ ≤ nearest x := le_nearest hulp

/-- Rounding does not rise above a power of two. -/
theorem nearest_le_pow (hn : -1074 ≤ n) (h₀ : 0 ≤ x) (h : x ≤ 2 ^ n) : nearest x ≤ 2 ^ n := by
  rcases h₀.eq_or_lt with rfl | hx
  · rw [nearest_zero]
    exact h
  · have hlog : Int.log 2 x ≤ n := by
      have hmono := Int.log_mono_right (b := 2) hx h
      have hpow : Int.log 2 ((2 : ℚ) ^ n) = n := by
        exact_mod_cast Int.log_zpow (R := ℚ) (b := 2) (by norm_num) n
      rwa [hpow] at hmono
    have hle : ulpExponent x ≤ n := by
      unfold ulpExponent
      rw [abs_of_pos hx]
      omega
    rw [pow_eq_mul_ulp hle] at h ⊢
    exact nearest_le h

end Bounds

end Binary64
