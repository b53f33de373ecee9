import FrameLisp.Number.Binary
import Mathlib.Algebra.Order.Field.Power
import Mathlib.Data.Int.Log
import Mathlib.Data.Rat.Floor
import Mathlib.Tactic.Ring

/-!
# Rounding what needs no rounding

`Binary.nearest` rounds a quotient to the closest magnitude. Here the quotient already is the value
of a magnitude, and rounding gives that magnitude back, in whatever terms the quotient is written.

The work is in the exponent. `Binary.steps` finds the leading bit of `num / den` from the bit
lengths of the two numbers and one comparison; that is the integer logarithm of the quotient, and
for the value of a magnitude the logarithm is read off the mantissa.

## Main results

* `Binary.steps_eq_log` — the exponent steps of a quotient, by its logarithm
* `Binary.nearest_of_ratio` — the value of a magnitude is rounded to that magnitude
* `Binary.exists_ratio_eq_whole` — whole numbers up to `2 ^ 53` are values of magnitudes
-/

namespace FrameLisp

namespace Binary

/-! ### The leading bit -/

theorem log_eq_of_bounds {q : ℚ} (hq : 0 < q) {k : ℤ} (hle : (2 : ℚ) ^ k ≤ q)
    (hlt : q < (2 : ℚ) ^ (k + 1)) : Int.log 2 q = k := by
  have hge : k ≤ Int.log 2 q := (Int.zpow_le_iff_le_log one_lt_two hq).mp (by exact_mod_cast hle)
  have hlt : Int.log 2 q < k + 1 :=
    (Int.lt_zpow_iff_log_lt one_lt_two hq).mp (by exact_mod_cast hlt)
  omega

/-- A power of two whose exponent is a difference, as a quotient of whole powers. -/
theorem zpow_sub_eq_div (a b : ℕ) : (2 : ℚ) ^ ((a : ℤ) - b) = 2 ^ (a - b) / 2 ^ (b - a) := by
  rw [← zpow_natCast, ← zpow_natCast, ← zpow_sub₀ two_ne_zero]
  congr 1
  omega

/-- The comparison that `steps` makes, without the subtraction in its exponents. -/
theorem zpow_le_div_iff {num den : ℕ} (hd : 0 < den) (g : ℤ) :
    (2 : ℚ) ^ g ≤ (num : ℚ) / den ↔ den * 2 ^ g.toNat ≤ num * 2 ^ (-g).toNat := by
  have hd' : (0 : ℚ) < den := by exact_mod_cast hd
  have hg : (2 : ℚ) ^ g = 2 ^ g.toNat / 2 ^ (-g).toNat := by
    rw [← zpow_natCast, ← zpow_natCast, ← zpow_sub₀ two_ne_zero]
    congr 1
    omega
  rw [hg, div_le_div_iff₀ (by positivity) hd', mul_comm den]
  constructor
  · intro h
    exact_mod_cast h
  · intro h
    exact_mod_cast h

theorem steps_eq_log {num den : ℕ} (hn : 0 < num) (hd : 0 < den) :
    steps num den = (Int.log 2 ((num : ℚ) / den) - 52 + 1074).toNat := by
  have hn' : (0 : ℚ) < num := by exact_mod_cast hn
  have hd' : (0 : ℚ) < den := by exact_mod_cast hd
  have hq : (0 : ℚ) < (num : ℚ) / den := div_pos hn' hd'
  set gap : ℤ := (num.log2 : ℤ) - den.log2 with hgap
  -- The bit lengths leave two candidates for the leading bit, `gap` and `gap - 1`.
  have hlow : (2 : ℚ) ^ (gap - 1) ≤ (num : ℚ) / den := by
    have hnum : (2 : ℚ) ^ (num.log2 : ℤ) ≤ num := by
      rw [zpow_natCast]; exact_mod_cast Nat.log2_self_le hn.ne'
    have hden : (den : ℚ) ≤ 2 ^ ((den.log2 : ℤ) + 1) := by
      exact_mod_cast (Nat.lt_log2_self (n := den)).le
    rw [le_div_iff₀ hd']
    calc (2 : ℚ) ^ (gap - 1) * den ≤ 2 ^ (gap - 1) * 2 ^ ((den.log2 : ℤ) + 1) :=
          mul_le_mul_of_nonneg_left hden (by positivity)
      _ = 2 ^ (num.log2 : ℤ) := by rw [← zpow_add₀ two_ne_zero]; congr 1; omega
      _ ≤ num := hnum
  have hhigh : (num : ℚ) / den < 2 ^ (gap + 1) := by
    have hnum : (num : ℚ) < 2 ^ ((num.log2 : ℤ) + 1) := by
      exact_mod_cast Nat.lt_log2_self (n := num)
    have hden : (2 : ℚ) ^ (den.log2 : ℤ) ≤ den := by
      rw [zpow_natCast]; exact_mod_cast Nat.log2_self_le hd.ne'
    rw [div_lt_iff₀ hd']
    calc (num : ℚ) < 2 ^ ((num.log2 : ℤ) + 1) := hnum
      _ = 2 ^ (gap + 1) * 2 ^ (den.log2 : ℤ) := by rw [← zpow_add₀ two_ne_zero]; congr 1; omega
      _ ≤ 2 ^ (gap + 1) * den := mul_le_mul_of_nonneg_left hden (by positivity)
  rw [steps]
  by_cases hle : den * 2 ^ gap.toNat ≤ num * 2 ^ (-gap).toNat
  · rw [log_eq_of_bounds hq ((zpow_le_div_iff hd gap).mpr hle) hhigh, ← hgap, if_pos hle]
  · have hlt : (num : ℚ) / den < 2 ^ (gap - 1 + 1) := by
      rw [sub_add_cancel]
      exact lt_of_not_ge fun h => hle ((zpow_le_div_iff hd gap).mp h)
    rw [log_eq_of_bounds hq hlow hlt, ← hgap, if_neg hle]

/-! ### Exact quotients -/

theorem mantissa_pos {m : ℕ} (hm : 0 < m) : 0 < mantissa m := by
  rw [mantissa]
  split <;> omega

theorem steps_mul_add_mantissa (m : ℕ) : exponentSteps m * 2 ^ 52 + mantissa m = m := by
  rw [exponentSteps, mantissa]
  split <;> omega

/-- The value of a magnitude, with one power of two for both parts of `ratio`. -/
theorem div_eq_of_ratio {m num den : ℕ} (hd : 0 < den)
    (h : num * (ratio m).2 = (ratio m).1 * den) :
    (num : ℚ) / den = mantissa m * 2 ^ ((exponentSteps m : ℤ) - 1074) := by
  have hd' : (0 : ℚ) < den := by exact_mod_cast hd
  have hpow := zpow_sub_eq_div (exponentSteps m) 1074
  rw [Nat.cast_ofNat] at hpow
  rw [hpow, ← mul_div_assoc, div_eq_div_iff hd'.ne' (by positivity)]
  have hcast := congrArg (Nat.cast : ℕ → ℚ) h
  simp only [ratio, Nat.cast_mul, Nat.cast_pow, Nat.cast_ofNat] at hcast
  exact hcast

theorem steps_of_ratio {m num den : ℕ} (hn : 0 < num) (hd : 0 < den)
    (h : num * (ratio m).2 = (ratio m).1 * den) : steps num den = exponentSteps m := by
  have hq := div_eq_of_ratio hd h
  have hpos : (0 : ℚ) < (num : ℚ) / den :=
    div_pos (by exact_mod_cast hn) (by exact_mod_cast hd)
  rw [steps_eq_log hn hd]
  by_cases hsub : m < 2 ^ 52
  · -- A subnormal magnitude has no steps, and its leading bit lies too low for any.
    have hs : exponentSteps m = 0 := by rw [exponentSteps]; omega
    have hlog : Int.log 2 ((num : ℚ) / den) < 52 - 1074 := by
      refine (Int.lt_zpow_iff_log_lt one_lt_two hpos).mp ?_
      have hm : (mantissa m : ℚ) < 2 ^ (52 : ℤ) := by
        rw [mantissa, if_pos hsub]
        exact_mod_cast hsub
      rw [hq, hs, sub_eq_add_neg (52 : ℤ), zpow_add₀ (by norm_num)]
      exact_mod_cast mul_lt_mul_of_pos_right hm (by positivity)
    omega
  · have hlow : (2 : ℚ) ^ (52 : ℤ) ≤ mantissa m := by
      rw [mantissa, if_neg hsub]
      exact_mod_cast Nat.le_add_left _ _
    have hhigh : (mantissa m : ℚ) < 2 ^ (53 : ℤ) := by
      have : mantissa m < 2 ^ 53 := by rw [mantissa, if_neg hsub]; omega
      exact_mod_cast this
    have hlog : Int.log 2 ((num : ℚ) / den) = 52 + ((exponentSteps m : ℤ) - 1074) := by
      refine log_eq_of_bounds hpos ?_ ?_
      · rw [hq, zpow_add₀ two_ne_zero]
        exact mul_le_mul_of_nonneg_right hlow (by positivity)
      · rw [hq, show (52 : ℤ) + ((exponentSteps m : ℤ) - 1074) + 1
          = 53 + ((exponentSteps m : ℤ) - 1074) by ring, zpow_add₀ two_ne_zero]
        exact mul_lt_mul_of_pos_right hhigh (by positivity)
    omega

theorem roundQuotient_mul {q den : ℕ} (hd : 0 < den) : roundQuotient (q * den) den = q := by
  rw [roundQuotient, Nat.mul_mod_left, Nat.mul_div_cancel _ hd, if_neg (by omega)]

/-- **Exact quotients round to themselves.** A quotient that is the value of a magnitude is rounded
to that magnitude. -/
theorem nearest_of_ratio {m num den : ℕ} (hm : 0 < m) (hfin : m ≤ infinity) (hd : 0 < den)
    (h : num * (ratio m).2 = (ratio m).1 * den) : nearest num den = m := by
  have hmant := mantissa_pos hm
  have hn : 0 < num := by
    refine Nat.pos_of_ne_zero fun h0 => ?_
    have : 0 < (ratio m).1 * den := by rw [ratio]; positivity
    simp [← h, h0] at this
  have hround : num * 2 ^ (1074 - exponentSteps m)
      = mantissa m * (den * 2 ^ (exponentSteps m - 1074)) := by
    simp only [ratio] at h
    rw [h]
    ring
  rw [nearest, if_neg hn.ne']
  simp only [steps_of_ratio hn hd h]
  rw [hround, roundQuotient_mul (by positivity), steps_mul_add_mantissa, Nat.min_eq_left hfin]

/-! ### Whole numbers -/

/-- A whole number below `2 ^ 53`, shifted to the left until it fills a mantissa. -/
theorem log2_bounds {k : ℕ} (h0 : 0 < k) (hk : k < 2 ^ 53) :
    k.log2 ≤ 52 ∧ 2 ^ 52 ≤ k * 2 ^ (52 - k.log2) ∧ k * 2 ^ (52 - k.log2) < 2 ^ 53 := by
  have hlog : k.log2 < 53 := (Nat.log2_lt h0.ne').mpr hk
  refine ⟨by omega, ?_, ?_⟩
  · calc 2 ^ 52 = 2 ^ k.log2 * 2 ^ (52 - k.log2) := by rw [← pow_add]; congr 1; omega
      _ ≤ k * 2 ^ (52 - k.log2) := Nat.mul_le_mul_right _ (Nat.log2_self_le h0.ne')
  · calc k * 2 ^ (52 - k.log2) < 2 ^ (k.log2 + 1) * 2 ^ (52 - k.log2) :=
          Nat.mul_lt_mul_of_pos_right Nat.lt_log2_self (by positivity)
      _ = 2 ^ 53 := by rw [← pow_add]; congr 1; omega

theorem exists_ratio_eq_whole {k : ℕ} (h0 : 0 < k) (hk : k ≤ 2 ^ 53) :
    ∃ m, 0 < m ∧ m < infinity ∧ k * (ratio m).2 = (ratio m).1 := by
  rcases hk.lt_or_eq with hk | rfl
  · obtain ⟨hlog, hlow, hhigh⟩ := log2_bounds h0 hk
    set a := k.log2
    set M := k * 2 ^ (52 - a) with hM
    have hsteps : exponentSteps ((a + 1022) * 2 ^ 52 + M) = a + 1022 := by
      rw [exponentSteps]; omega
    have hmant : mantissa ((a + 1022) * 2 ^ 52 + M) = M := by
      rw [mantissa, if_neg (by omega)]; omega
    refine ⟨(a + 1022) * 2 ^ 52 + M, by omega, by rw [infinity]; omega, ?_⟩
    rw [ratio, hsteps, hmant, show a + 1022 - 1074 = 0 by omega,
      show 1074 - (a + 1022) = 52 - a by omega, pow_zero, mul_one]
  · exact ⟨1076 * 2 ^ 52, by decide, by decide, by decide⟩

end Binary

end FrameLisp
