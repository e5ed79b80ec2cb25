import Mathlib.Algebra.Order.Floor.Ring
import Mathlib.Data.Int.Log
import Mathlib.Tactic.FieldSimp
import Mathlib.Tactic.Linarith
import Mathlib.Tactic.Ring

/-!
# Decimal rounding

Rounding to an integer with halves away from zero (`roundAway`), to a number of decimals (`toScale`)
and to a number of significant digits (`toPrecision`), over any linearly ordered field with a floor.

* What is added to or taken from an integer is rounded on its own, with halves up (`roundAway_add`)
  or down (`roundAway_sub`).
* `toPrecision` is monotone (`toPrecision_mono`), leaves exactly the numbers with few digits alone
  (`toPrecision_eq_self_iff`), and adds no decimals (`toScale_toPrecision`).
-/

namespace Orbit.Decimal

variable {K : Type} [Field K] [LinearOrder K] [IsStrictOrderedRing K] [FloorRing K]

/-- The nearest integer, and of two the one farther from zero. -/
def roundAway (x : K) : ℤ := if 0 ≤ x then ⌊x + 1 / 2⌋ else -⌊-x + 1 / 2⌋

/-- Rounded to `n` decimals. -/
def toScale (n : ℕ) (x : K) : K := roundAway (x * 10 ^ n) / 10 ^ n

/-- The exponent of the last of `n` significant digits. -/
def lastDigit (n : ℕ) (x : K) : ℤ := Int.log 10 |x| - n + 1

/-- Rounded to `n` significant digits. -/
def toPrecision (n : ℕ) (x : K) : K :=
  if x = 0 then 0 else roundAway (x / 10 ^ lastDigit n x) * 10 ^ lastDigit n x

/-! ## Integers -/

section Round

variable {x : K} {z : ℤ}

omit [IsStrictOrderedRing K] in
theorem roundAway_of_nonneg (h : 0 ≤ x) : roundAway x = ⌊x + 1 / 2⌋ := if_pos h

theorem roundAway_nonneg (h : 0 ≤ x) : 0 ≤ roundAway x := by
  rw [roundAway_of_nonneg h]
  exact Int.floor_nonneg.mpr (by linarith)

@[simp] theorem roundAway_intCast (z : ℤ) : roundAway (z : K) = z := by
  have hfloor : ∀ w : ℤ, ⌊(w : K) + 1 / 2⌋ = w := fun w => by
    rw [Int.floor_eq_iff]
    constructor <;> linarith
  unfold roundAway
  split
  · exact hfloor z
  · rw [← Int.cast_neg, hfloor, neg_neg]

/-- What is added to an integer is rounded with halves up. -/
theorem roundAway_add (h : 0 ≤ (z : K) + x) : roundAway ((z : K) + x) = z + ⌊x + 1 / 2⌋ := by
  rw [roundAway_of_nonneg h, add_assoc, Int.floor_intCast_add]

/-- What is taken from an integer is rounded with halves down. -/
theorem roundAway_sub (h : -(1 / 2) < (z : K) - x) : roundAway ((z : K) - x) = z - ⌈x - 1 / 2⌉ := by
  by_cases h0 : 0 ≤ (z : K) - x
  · have e : (z : K) - x + 1 / 2 = (z : K) + -(x - 1 / 2) := by ring
    rw [roundAway_of_nonneg h0, e, Int.floor_intCast_add, Int.floor_neg]
    ring
  · have hceil : ⌈x - 1 / 2⌉ = z := by
      rw [Int.ceil_eq_iff]
      constructor <;> linarith
    have hfloor : ⌊-((z : K) - x) + 1 / 2⌋ = 0 := by
      rw [Int.floor_eq_iff]
      constructor
      · push_cast
        linarith
      · push_cast
        linarith
    rw [roundAway, if_neg h0, hfloor, hceil]
    ring

/-- What rounds to no negative integer is more than minus one half. -/
theorem lt_of_roundAway_nonneg (h : 0 ≤ roundAway x) : -(1 / 2) < x := by
  by_contra hx
  have hneg : ¬0 ≤ x := by linarith
  rw [roundAway, if_neg hneg] at h
  have : (1 : ℤ) ≤ ⌊-x + 1 / 2⌋ := Int.le_floor.mpr (by push_cast; linarith)
  linarith

/-- Halves down is halves up, or one less. -/
theorem abs_sub_lt_half_iff : |x - z| < 1 / 2 ↔ ⌊x + 1 / 2⌋ = z ∧ ⌈x - 1 / 2⌉ = z := by
  rw [abs_lt, Int.floor_eq_iff, Int.ceil_eq_iff]
  constructor
  · rintro ⟨h₁, h₂⟩
    refine ⟨⟨?_, ?_⟩, ?_, ?_⟩ <;> linarith
  · rintro ⟨⟨h₁, h₂⟩, h₃, h₄⟩
    constructor <;> linarith

theorem roundAway_neg (x : K) : roundAway (-x) = -roundAway x := by
  rcases lt_trichotomy x 0 with hx | rfl | hx
  · rw [roundAway, roundAway, if_pos (by linarith), if_neg (by linarith), neg_neg]
  · have hzero : roundAway (0 : K) = 0 := by simpa using roundAway_intCast (K := K) 0
    rw [neg_zero, hzero, neg_zero]
  · rw [roundAway, roundAway, if_neg (by linarith), if_pos hx.le, neg_neg]

end Round

/-! ## Significant digits -/

section Digits

variable {n : ℕ} {x y : K}

theorem zpow_lastDigit_pos (n : ℕ) (x : K) : (0 : K) < 10 ^ lastDigit n x :=
    zpow_pos (by norm_num) _

theorem toPrecision_of_pos (h : 0 < x) :
    toPrecision n x = ⌊x / 10 ^ lastDigit n x + 1 / 2⌋ * 10 ^ lastDigit n x := by
  rw [toPrecision, if_neg h.ne', roundAway_of_nonneg (div_nonneg h.le (zpow_lastDigit_pos n x).le)]

theorem toPrecision_nonneg (h : 0 ≤ x) : 0 ≤ toPrecision n x := by
  rcases h.eq_or_lt with rfl | h
  · simp [toPrecision]
  · have hround := roundAway_nonneg (div_nonneg h.le (zpow_lastDigit_pos n x).le)
    rw [toPrecision, if_neg h.ne']
    exact mul_nonneg (by exact_mod_cast hround) (zpow_lastDigit_pos n x).le

/-- The rounded number is in the decade of the number, or at its upper end. -/
theorem toPrecision_bounds (hn : 0 < n) (h : 0 < x) :
    (10 : K) ^ Int.log 10 x ≤ toPrecision n x ∧ toPrecision n x ≤ 10 ^ (Int.log 10 x + 1) := by
  obtain ⟨k, rfl⟩ := Nat.exists_eq_succ_of_ne_zero hn.ne'
  have hd : lastDigit (k + 1) x = Int.log 10 x - k := by
    rw [lastDigit, abs_of_pos h]
    push_cast
    ring
  have h10 : (10 : K) ≠ 0 := by norm_num
  have hpos := zpow_lastDigit_pos (k + 1) x
  have hlow : (10 : K) ^ Int.log 10 x = 10 ^ k * 10 ^ lastDigit (k + 1) x := by
    rw [hd, ← zpow_natCast, ← zpow_add₀ h10]
    congr 1
    ring
  have hhigh : (10 : K) ^ (Int.log 10 x + 1) = 10 ^ (k + 1) * 10 ^ lastDigit (k + 1) x := by
    rw [zpow_add_one₀ h10, hlow, pow_succ]
    ring
  have h₁ : (10 : K) ^ k ≤ x / 10 ^ lastDigit (k + 1) x := by
    rw [le_div_iff₀ hpos, ← hlow]
    exact Int.zpow_log_le_self (by norm_num) h
  have h₂ : x / 10 ^ lastDigit (k + 1) x < 10 ^ (k + 1) := by
    rw [div_lt_iff₀ hpos, ← hhigh]
    exact Int.lt_zpow_succ_log_self (by norm_num) x
  have hfloor₁ : (10 : ℤ) ^ k ≤ ⌊x / 10 ^ lastDigit (k + 1) x + 1 / 2⌋ :=
    Int.le_floor.mpr (by push_cast; linarith)
  have hfloor₂ : ⌊x / 10 ^ lastDigit (k + 1) x + 1 / 2⌋ ≤ (10 : ℤ) ^ (k + 1) := by
    refine Int.lt_add_one_iff.mp (Int.floor_lt.mpr ?_)
    push_cast
    linarith
  rw [toPrecision_of_pos h, hlow, hhigh]
  refine ⟨mul_le_mul_of_nonneg_right ?_ hpos.le, mul_le_mul_of_nonneg_right ?_ hpos.le⟩
  · exact_mod_cast hfloor₁
  · exact_mod_cast hfloor₂

/-- **Rounding to significant digits is monotone.** -/
theorem toPrecision_mono (hn : 0 < n) (hx : 0 ≤ x) (h : x ≤ y) :
    toPrecision n x ≤ toPrecision n y := by
  rcases hx.eq_or_lt with rfl | hx
  · rw [toPrecision, if_pos rfl]
    exact toPrecision_nonneg h
  have hy := hx.trans_le h
  rcases (Int.log_mono_right (b := 10) hx h).eq_or_lt with he | hlt
  · have hd : lastDigit n x = lastDigit n y := by
      rw [lastDigit, lastDigit, abs_of_pos hx, abs_of_pos hy, he]
    rw [toPrecision_of_pos hx, toPrecision_of_pos hy, hd]
    refine mul_le_mul_of_nonneg_right ?_ (zpow_lastDigit_pos n y).le
    exact_mod_cast Int.floor_mono
      (add_le_add_left (div_le_div_of_nonneg_right h (zpow_lastDigit_pos n y).le) _)
  · -- a power of ten lies between the two
    calc toPrecision n x ≤ 10 ^ (Int.log 10 x + 1) := (toPrecision_bounds hn hx).2
      _ ≤ 10 ^ Int.log 10 y := zpow_le_zpow_right₀ (by norm_num) (by omega)
      _ ≤ toPrecision n y := (toPrecision_bounds hn hy).1

/-- **A number with at most `n` digits** is rounded to itself. -/
theorem toPrecision_of_digits {d j : ℤ} (hd : |d| < 10 ^ n) :
    toPrecision n ((d : K) * 10 ^ j) = (d : K) * 10 ^ j := by
  have h10 : (10 : K) ≠ 0 := by norm_num
  by_cases h0 : d = 0
  · simp [toPrecision, h0]
  have hne : (d : K) * 10 ^ j ≠ 0 := mul_ne_zero (by exact_mod_cast h0) (zpow_ne_zero j h10)
  -- the last digit that is kept is not before the last one that there is
  have hle : lastDigit n ((d : K) * 10 ^ j) ≤ j := by
    have hlt : |(d : K) * 10 ^ j| < ((10 : ℕ) : K) ^ (n + j) := by
      have hcast : |(d : K)| < 10 ^ n := by exact_mod_cast hd
      rw [abs_mul, abs_of_pos (zpow_pos (by norm_num : (0 : K) < 10) j), Nat.cast_ofNat,
        zpow_add₀ h10, zpow_natCast]
      exact mul_lt_mul_of_pos_right hcast (zpow_pos (by norm_num) j)
    have := (Int.lt_zpow_iff_log_lt (by norm_num) (abs_pos.mpr hne)).mp hlt
    unfold lastDigit
    omega
  obtain ⟨i, hi⟩ := Int.eq_ofNat_of_zero_le (sub_nonneg.mpr hle)
  have hquot : (d : K) * 10 ^ j / 10 ^ lastDigit n ((d : K) * 10 ^ j) = ((d * 10 ^ i : ℤ) : K) := by
    rw [mul_div_assoc, ← zpow_sub₀ h10, hi, zpow_natCast]
    push_cast
    ring
  rw [toPrecision, if_neg hne, hquot, roundAway_intCast, ← hquot,
    div_mul_cancel₀ _ (zpow_ne_zero _ h10)]

/-- **What is rounded to itself** are the numbers with at most `n` digits. -/
theorem toPrecision_eq_self_iff (hn : 0 < n) (hx : 0 ≤ x) :
    toPrecision n x = x ↔ ∃ d j : ℤ, |d| < 10 ^ n ∧ x = (d : K) * 10 ^ j := by
  have h10 : (10 : K) ≠ 0 := by norm_num
  constructor
  · intro h
    rcases hx.eq_or_lt with rfl | hpos
    · exact ⟨0, 0, by rw [abs_zero]; positivity, by simp⟩
    have hround : 0 ≤ roundAway (x / 10 ^ lastDigit n x) :=
      roundAway_nonneg (div_nonneg hx (zpow_lastDigit_pos n x).le)
    have heq : x = (roundAway (x / 10 ^ lastDigit n x) : K) * 10 ^ lastDigit n x := by
      rwa [toPrecision, if_neg hpos.ne', eq_comm] at h
    rcases (toPrecision_bounds hn hpos).2.eq_or_lt with htop | hlt
    · -- it is a power of ten
      rw [h] at htop
      have hone : |(1 : ℤ)| < 10 ^ n := by
        rw [abs_one]
        exact_mod_cast Nat.one_lt_pow hn.ne' (by norm_num)
      exact ⟨1, _, hone, by rw [Int.cast_one, one_mul, ← htop]⟩
    · have hexp : Int.log 10 x + 1 = n + lastDigit n x := by
        rw [lastDigit, abs_of_pos hpos]
        ring
      have hpow : (roundAway (x / 10 ^ lastDigit n x) : K) < 10 ^ n := by
        refine lt_of_mul_lt_mul_right ?_ (zpow_lastDigit_pos n x).le
        rw [← heq, ← zpow_natCast, ← zpow_add₀ h10, ← hexp]
        rwa [h] at hlt
      exact ⟨_, _, by rw [abs_of_nonneg hround]; exact_mod_cast hpow, heq⟩
  · rintro ⟨d, j, hd, rfl⟩
    exact toPrecision_of_digits hd

theorem toPrecision_neg (x : K) : toPrecision n (-x) = -toPrecision n x := by
  by_cases h0 : x = 0
  · simp [toPrecision, h0]
  · rw [toPrecision, toPrecision, if_neg (neg_ne_zero.mpr h0), if_neg h0,
      lastDigit, lastDigit, abs_neg,
      neg_div, roundAway_neg, Int.cast_neg, neg_mul]

/-- A negative number stays negative. -/
theorem toPrecision_lt_zero (hn : 0 < n) (hx : x < 0) : toPrecision n x < 0 := by
  have hpos := (zpow_pos (by norm_num : (0 : K) < 10) _).trans_le
    (toPrecision_bounds hn (neg_pos.mpr hx)).1
  rw [toPrecision_neg] at hpos
  exact neg_pos.mp hpos

end Digits

/-! ## Decimals -/

section Scale

variable {n : ℕ}

/-- A number with at most `n` decimals is rounded to itself. -/
theorem toScale_intCast_div (z : ℤ) : toScale n ((z : K) / 10 ^ n) = (z : K) / 10 ^ n := by
  have hpow : (10 : K) ^ n ≠ 0 := pow_ne_zero _ (by norm_num)
  rw [toScale, div_mul_cancel₀ _ hpow, roundAway_intCast]

theorem toScale_nonneg {x : K} (h : 0 ≤ x) : 0 ≤ toScale n x := by
  have hround := roundAway_nonneg (mul_nonneg h (pow_nonneg (by norm_num : (0 : K) ≤ 10) n))
  exact div_nonneg (by exact_mod_cast hround) (pow_nonneg (by norm_num) n)

/-- **Rounding to significant digits adds no decimals.** -/
theorem toScale_toPrecision {m : ℕ} (z : ℤ) :
    toScale n (toPrecision m ((z : K) / 10 ^ n)) = toPrecision m ((z : K) / 10 ^ n) := by
  have h10 : (10 : K) ≠ 0 := by norm_num
  have hshift : (z : K) / 10 ^ n = (z : K) * 10 ^ (-(n : ℤ)) := by
    rw [zpow_neg, zpow_natCast, div_eq_mul_inv]
  by_cases hz : |z| < 10 ^ m
  · rw [hshift, toPrecision_of_digits hz, ← hshift, toScale_intCast_div]
  · have hbig : (10 : K) ^ (m : ℤ) ≤ |(z : K)| := by
      rw [zpow_natCast]
      exact_mod_cast not_lt.mp hz
    have hpos : 0 < |(z : K) / 10 ^ n| := by
      rw [abs_div]
      exact div_pos ((zpow_pos (by norm_num) _).trans_le hbig) (by positivity)
    have hlog : (m : ℤ) - n ≤ Int.log 10 |(z : K) / 10 ^ n| := by
      rw [← Int.zpow_le_iff_le_log (by norm_num) hpos, abs_div,
        abs_of_pos (by positivity : (0 : K) < 10 ^ n),
        Nat.cast_ofNat, zpow_sub₀ h10, zpow_natCast 10 n]
      exact div_le_div_of_nonneg_right hbig (by positivity)
    -- the last digit that is kept is one of the decimals, or in front of them
    obtain ⟨i, hi⟩ := Int.eq_ofNat_of_zero_le
      (show 0 ≤ lastDigit m ((z : K) / 10 ^ n) + n by unfold lastDigit; omega)
    have hpow : ∀ e : ℤ, e + n = i → (10 : K) ^ e * 10 ^ n = 10 ^ i := fun e he => by
      rw [← zpow_natCast 10 n, ← zpow_natCast 10 i, ← zpow_add₀ h10, he]
    have hmul : toPrecision m ((z : K) / 10 ^ n) =
        ((roundAway ((z : K) / 10 ^ n / 10 ^ lastDigit m ((z : K) / 10 ^ n)) * 10 ^ i : ℤ) : K)
        / 10 ^ n := by
      rw [toPrecision, if_neg (abs_pos.mp hpos), eq_div_iff (by positivity), mul_assoc, hpow _ hi]
      push_cast
      rfl
    rw [hmul, toScale_intCast_div]

end Scale

end Orbit.Decimal
