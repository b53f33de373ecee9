import FrameLisp.Number.Arithmetic
import FrameLisp.Proofs.Number.Nearest

/-!
# Whole numbers

A finite number has an exact value, a fraction whose denominator is a power of two. It is *whole* if
the value is an integer. `Number.toInt?` recognises whole numbers, as long as they are of moderate
size.

The whole numbers up to `2 ^ 53` are all there, and the next one is missing: its mantissa would need
one more bit. A text that numbers its parts from zero, each by a number of the language, therefore
has at most `2 ^ 53` of them.

## Main definitions

* `Number.value` — the exact value of a finite number
* `Number.IsWhole` — a number whose value is an integer

## Main results

* `Number.toInt?_eq_some_iff` — which numbers are taken for integers
* `Number.not_isWhole_gap` — no number has the value `2 ^ 53 + 1`
-/

namespace FrameLisp

namespace Number

/-- The exact value of a finite number. -/
def value (x : Float) : ℚ :=
  let size : ℚ := (Binary.ratio (Binary.magnitude x)).1 / (Binary.ratio (Binary.magnitude x)).2
  if Binary.isNegative x then -size else size

/-- A finite number whose value is the given integer. Both zeros have the value zero. -/
def IsWhole (x : Float) (k : ℤ) : Prop := Binary.isFinite x ∧ value x = k

theorem div_eq_cast_iff {num den q : ℕ} (hden : 0 < den) :
    (num : ℚ) / den = q ↔ num = q * den := by
  have hden' : (den : ℚ) ≠ 0 := by exact_mod_cast hden.ne'
  rw [div_eq_iff hden']
  exact_mod_cast Iff.rfl

theorem ratio_snd_pos (m : ℕ) : 0 < (Binary.ratio m).2 := by
  rw [Binary.ratio]
  positivity

/-- A number is whole if the denominator of its size goes into the numerator. -/
theorem isWhole_iff {x : Float} {k : ℤ} : IsWhole x k ↔ Binary.isFinite x ∧ ∃ q : ℕ,
    (Binary.ratio (Binary.magnitude x)).1 = q * (Binary.ratio (Binary.magnitude x)).2 ∧
      k = if Binary.isNegative x then -(q : ℤ) else q := by
  have hden := ratio_snd_pos (Binary.magnitude x)
  refine and_congr_right fun _ => ?_
  simp only [← div_eq_cast_iff hden, value]
  have hsize : (0 : ℚ) ≤ (Binary.ratio (Binary.magnitude x)).1 /
      (Binary.ratio (Binary.magnitude x)).2 := div_nonneg (Nat.cast_nonneg _) (Nat.cast_nonneg _)
  generalize ((Binary.ratio (Binary.magnitude x)).1 : ℚ) /
    (Binary.ratio (Binary.magnitude x)).2 = size at hsize
  split
  · constructor
    · intro h
      have hk : k ≤ 0 := by
        have hk' : (k : ℚ) ≤ 0 := by linarith
        exact_mod_cast hk'
      obtain ⟨q, rfl⟩ := Int.exists_eq_neg_ofNat hk
      refine ⟨q, ?_, rfl⟩
      push_cast at h
      linarith
    · rintro ⟨q, rfl, rfl⟩
      push_cast
      rfl
  · constructor
    · rintro rfl
      obtain ⟨q, rfl⟩ := Int.eq_ofNat_of_zero_le (by exact_mod_cast hsize)
      exact ⟨q, by push_cast; rfl, rfl⟩
    · rintro ⟨q, rfl, rfl⟩
      push_cast
      rfl

/-- **Which numbers are taken for integers:** the whole ones of absolute value below `2 ^ 63`. -/
theorem toInt?_eq_some_iff {x : Float} {k : ℤ} :
    toInt? x = some k ↔ IsWhole x k ∧ k.natAbs < 2 ^ 63 := by
  have hden := ratio_snd_pos (Binary.magnitude x)
  have habs : ∀ q : ℕ, (if Binary.isNegative x then -(q : ℤ) else q).natAbs = q := by
    intro q
    split <;> simp
  rw [isWhole_iff, toInt?]
  generalize Binary.ratio (Binary.magnitude x) = r at hden
  obtain ⟨num, den⟩ := r
  by_cases hfinite : Binary.isFinite x
  · simp only [hfinite, if_true, true_and]
    constructor
    · intro h
      split at h
      next hcond =>
        obtain rfl := Option.some.inj h
        rw [habs]
        refine ⟨⟨num / den, ?_, rfl⟩, hcond.2⟩
        exact (Nat.div_mul_cancel (Nat.dvd_of_mod_eq_zero hcond.1)).symm
      next => cases h
    · rintro ⟨⟨q, rfl, rfl⟩, hq⟩
      rw [habs] at hq
      rw [Nat.mul_mod_left, Nat.mul_div_cancel _ hden, if_pos ⟨rfl, hq⟩]
  · simp [hfinite]

/-! ### The first gap -/

theorem mantissa_lt (m : ℕ) : Binary.mantissa m < 2 ^ 53 := by
  rw [Binary.mantissa]
  split <;> omega

/-- **No number has the value `2 ^ 53 + 1`.** It is odd, so it would be a mantissa itself. -/
theorem not_isWhole_gap (x : Float) : ¬ IsWhole x (2 ^ 53 + 1) := by
  intro h
  obtain ⟨-, q, hratio, hq⟩ := isWhole_iff.mp h
  obtain rfl : q = 2 ^ 53 + 1 := by
    split at hq <;> omega
  have hlt := mantissa_lt (Binary.magnitude x)
  simp only [Binary.ratio] at hratio
  generalize Binary.mantissa (Binary.magnitude x) = mantissa at hratio hlt
  generalize Binary.exponentSteps (Binary.magnitude x) = steps at hratio
  rcases Nat.lt_or_ge 1074 steps with hsteps | hsteps
  · -- a number past the exact range is even
    have hpow : 1074 - steps = 0 := by omega
    obtain ⟨e, he⟩ : ∃ e, steps - 1074 = e + 1 := ⟨steps - 1075, by omega⟩
    rw [hpow, he, pow_zero, mul_one, pow_succ, ← mul_assoc] at hratio
    omega
  · have hpow : steps - 1074 = 0 := by omega
    have hpos : 0 < 2 ^ (1074 - steps) := by positivity
    rw [hpow, pow_zero, mul_one] at hratio
    have hle : (2 ^ 53 + 1) * 1 ≤ (2 ^ 53 + 1) * 2 ^ (1074 - steps) :=
      Nat.mul_le_mul_left _ hpos
    omega

end Number

end FrameLisp
