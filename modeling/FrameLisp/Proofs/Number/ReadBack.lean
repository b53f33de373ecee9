import FrameLisp.Number.Arithmetic
import FrameLisp.Proofs.Number.Nearest
import FrameLisp.Proofs.Number.Pattern
import Mathlib.Data.List.TakeWhile

/-!
# Numbers read back

The text of a finite number is a literal, and the literal stands for that very number, the sign of
a zero included. Three facts make up the proof: whatever the search for the shortest decimal finds
rounds to the number, since the search tests it and its fallback is exact; writing a decimal without
an exponent loses nothing; and a literal without an exponent is read as it is written.

Whole numbers are read exactly up to `2 ^ 53`, which is as far as a snapshot can number its blocks.

## Main results

* `Literal.ofChars?_signed` — reading digits with an optional sign and an optional fraction
* `Decimal.magnitude_shortest` — the shortest decimal rounds to the number it was made from
* `Number.exists_ofChars?_text` — the text of a finite number reads back
* `Number.toInt?_whole` — whole numbers up to `2 ^ 53` are exact
-/

namespace FrameLisp

/-! ### Reading digits -/

namespace Literal

theorem isDigit_of_mem_toDigits {c : Char} {n : ℕ} (h : c ∈ Nat.toDigits 10 n) : isDigit c :=
  Nat.isDigit_of_mem_toDigits (by decide) (by decide) h

theorem isDigit_of_mem_zeros {c : Char} {n : ℕ} (h : c ∈ List.replicate n '0') : isDigit c := by
  rw [List.eq_of_mem_replicate h]
  decide

/-- A fraction as it is written after the whole part: nothing, or a point and its digits. -/
def fractionChars (fraction : List Char) : List Char :=
  if fraction = [] then [] else '.' :: fraction

theorem splitSign_of_isDigit {c : Char} (hc : isDigit c) (cs : List Char) :
    splitSign (c :: cs) = (false, c :: cs) := by
  unfold splitSign
  split
  next h => cases h; exact absurd hc (by decide)
  next h => cases h; exact absurd hc (by decide)
  next => rfl

theorem splitFraction_fractionChars {fraction : List Char} (h : ∀ c ∈ fraction, isDigit c) :
    splitFraction (fractionChars fraction) = (fraction, []) := by
  rw [fractionChars]
  split
  next h => rw [h]; rfl
  next => rw [splitFraction, List.takeWhile_eq_self_iff.mpr h, List.dropWhile_eq_nil_iff.mpr h]

/-- The whole part ends where the fraction begins. -/
theorem span_whole {whole : List Char} (h : ∀ c ∈ whole, isDigit c) (fraction : List Char) :
    (whole ++ fractionChars fraction).takeWhile isDigit = whole ∧
      (whole ++ fractionChars fraction).dropWhile isDigit = fractionChars fraction := by
  have hstop : (fractionChars fraction).takeWhile isDigit = [] ∧
      (fractionChars fraction).dropWhile isDigit = fractionChars fraction := by
    rw [fractionChars]
    split <;> exact ⟨rfl, rfl⟩
  rw [List.takeWhile_append_of_pos h, List.dropWhile_append_of_pos h, hstop.1, hstop.2,
    List.append_nil]
  exact ⟨rfl, rfl⟩

theorem ofChars?_signed (negative : Bool) {whole fraction : List Char} (hne : whole ≠ [])
    (hwhole : ∀ c ∈ whole, isDigit c) (hfraction : ∀ c ∈ fraction, isDigit c) :
    ofChars? ((if negative then ['-'] else []) ++ (whole ++ fractionChars fraction)) =
      some ⟨negative, ⟨value (whole ++ fraction), -(fraction.length : ℤ)⟩⟩ := by
  have hsign : splitSign ((if negative then ['-'] else []) ++ (whole ++ fractionChars fraction)) =
      (negative, whole ++ fractionChars fraction) := by
    cases negative with
    | true => rfl
    | false =>
      obtain ⟨c, cs, rfl⟩ := List.exists_cons_of_ne_nil hne
      exact splitSign_of_isDigit (hwhole c List.mem_cons_self) _
  obtain ⟨htake, hdrop⟩ := span_whole hwhole fraction
  rw [ofChars?, hsign]
  simp only [htake, hdrop, splitFraction_fractionChars hfraction]
  simp [hne, exponent?]

/-- The digits of a natural number are a literal for it. -/
theorem ofChars?_toDigits (n : ℕ) : ofChars? (Nat.toDigits 10 n) = some ⟨false, ⟨n, 0⟩⟩ := by
  have hnone : ∀ c ∈ ([] : List Char), isDigit c := by simp
  have h := ofChars?_signed false Nat.toDigits_ne_nil
    (fun c => isDigit_of_mem_toDigits (n := n)) hnone
  simpa [fractionChars, value, Nat.ofDigitChars_toDigits] using h

end Literal

/-! ### Decimals -/

namespace Decimal

/-- A decimal written out, taken apart again: the digits before and after the point, and what they
amount to. -/
theorem exists_positional (d : Decimal) :
    ∃ whole fraction, d.positional = whole ++ Literal.fractionChars fraction ∧ whole ≠ [] ∧
      (∀ c ∈ whole, Literal.isDigit c) ∧ (∀ c ∈ fraction, Literal.isDigit c) ∧
      Literal.value (whole ++ fraction) = d.coefficient * 10 ^ d.exponent.toNat ∧
      fraction.length = (-d.exponent).toNat := by
  have hds : ∀ c ∈ d.digits, Literal.isDigit c := fun c hc => Literal.isDigit_of_mem_toDigits hc
  have hvalue : Literal.value d.digits = d.coefficient :=
    Nat.ofDigitChars_toDigits (by decide) (by decide)
  rw [positional]
  split
  next hplaces =>
    refine ⟨d.digits ++ List.replicate d.exponent.toNat '0', [], ?_, ?_, ?_, ?_, ?_, ?_⟩
    · simp [Literal.fractionChars]
    · simp [digits]
    · intro c hc
      exact (List.mem_append.mp hc).elim (hds c) Literal.isDigit_of_mem_zeros
    · simp
    · rw [List.append_nil, Literal.value, Nat.ofDigitChars_append, Nat.ofDigitChars_replicate_zero,
        show Nat.ofDigitChars 10 d.digits 0 = _ from hvalue, Nat.mul_comm]
    · simp [hplaces]
  next hplaces =>
    have hexp : d.exponent.toNat = 0 := by omega
    split
    next hlt =>
      refine ⟨d.digits.take (d.digits.length - (-d.exponent).toNat),
        d.digits.drop (d.digits.length - (-d.exponent).toNat), ?_, ?_,
        fun c hc => hds c (List.mem_of_mem_take hc), fun c hc => hds c (List.mem_of_mem_drop hc),
        ?_, ?_⟩
      · rw [Literal.fractionChars, if_neg]
        rw [List.drop_eq_nil_iff]
        omega
      · rw [Ne, List.take_eq_nil_iff]
        simp only [digits, Nat.toDigits_ne_nil, or_false] at hlt ⊢
        omega
      · rw [List.take_append_drop, hvalue, hexp, pow_zero, mul_one]
      · rw [List.length_drop]
        omega
    next hle =>
      refine ⟨['0'], List.replicate ((-d.exponent).toNat - d.digits.length) '0' ++ d.digits,
        ?_, by simp, List.forall_mem_singleton.mpr (by decide), ?_, ?_, ?_⟩
      · rw [Literal.fractionChars, if_neg (by simp [digits])]
        rfl
      · intro c hc
        exact (List.mem_append.mp hc).elim Literal.isDigit_of_mem_zeros (hds c)
      · rw [Literal.value, Nat.ofDigitChars_append, Nat.ofDigitChars_append,
          Nat.ofDigitChars_replicate_zero, hexp]
        simpa [Nat.ofDigitChars_cons, Literal.value] using hvalue
      · rw [List.length_append, List.length_replicate]
        omega

theorem lt_digitCount {k n : ℕ} (h : 10 ^ k ≤ n) : k < digitCount n := by
  induction k generalizing n with
  | zero =>
    rw [digitCount, if_neg (by omega)]
    omega
  | succ k ih =>
    have hk : 10 ^ k ≤ n / 10 := by
      rw [Nat.le_div_iff_mul_le (by decide), ← pow_succ]
      exact h
    have hpos : 0 < n := Nat.lt_of_lt_of_le (by positivity) h
    rw [digitCount, if_neg hpos.ne']
    exact Nat.succ_lt_succ (ih hk)

theorem two_pow_le_five_pow {k j : ℕ} (h : k ≤ 2 * j) : 2 ^ k ≤ 5 ^ j :=
  calc 2 ^ k ≤ 2 ^ (2 * j) := Nat.pow_le_pow_right (by decide) h
    _ = (2 ^ 2) ^ j := by rw [pow_mul]
    _ ≤ 5 ^ j := Nat.pow_le_pow_left (by decide) j

/-- A power of five has so many digits that the cut-off for small exponents in `magnitude` spares
the exact decimal of every number. -/
theorem le_digitCount_of_five_pow {p n : ℕ} (hp : p ≤ 1074) (h : 5 ^ p ≤ n) :
    p ≤ digitCount n + 400 := by
  by_cases hsmall : p ≤ 400
  · omega
  · obtain ⟨k, rfl⟩ : ∃ k, p = k + 400 := ⟨p - 400, by omega⟩
    have hpow : 10 ^ k ≤ 5 ^ (k + 400) :=
      calc 10 ^ k = 5 ^ k * 2 ^ k := Nat.mul_pow 5 2 k
        _ ≤ 5 ^ k * 5 ^ 400 := Nat.mul_le_mul_left _ (two_pow_le_five_pow (by omega))
        _ = 5 ^ (k + 400) := by rw [pow_add]
    have := lt_digitCount (hpow.trans h)
    omega

theorem magnitude_exact {m : ℕ} (hm : 0 < m) (hfin : m < Binary.infinity) :
    (exact m).magnitude = m := by
  set s := Binary.exponentSteps m with hs
  have hmant := Binary.mantissa_pos hm
  have hcoef : 5 ^ (1074 - s) ≤ (exact m).coefficient :=
    Nat.le_mul_of_pos_left _ (by positivity)
  have hexp : (exact m).exponent = -((1074 - s : ℕ) : ℤ) := rfl
  have hcount := le_digitCount_of_five_pow (Nat.sub_le _ _) hcoef
  have hpos : 0 < (exact m).coefficient :=
    Nat.lt_of_lt_of_le (Nat.pow_pos (by decide)) hcoef
  rw [magnitude, if_neg hpos.ne', if_neg (by omega), if_neg (by omega), hexp,
    show (-((1074 - s : ℕ) : ℤ)).toNat = 0 by omega,
    show (- -((1074 - s : ℕ) : ℤ)).toNat = 1074 - s by omega]
  refine Binary.nearest_of_ratio hm hfin.le (by positivity) ?_
  have hten : 10 ^ (1074 - s) = 2 ^ (1074 - s) * 5 ^ (1074 - s) := Nat.mul_pow 2 5 _
  rw [exact, Binary.ratio, ← hs, hten]
  generalize 2 ^ (1074 - s) = a, 5 ^ (1074 - s) = b
  ring

/-- **The shortest decimal reads back.** A find of the search was tested, and the fallback is
exact. -/
theorem magnitude_shortest {m : ℕ} (hfin : m < Binary.infinity) (tie : Tie) :
    (shortest tie m).magnitude = m := by
  rw [shortest]
  split
  next h0 => rw [h0]; rfl
  next h0 =>
    cases hfind : (List.range 17).findSome? fun i =>
        ((neighbours tie m (i + 1)).map strip).find? (·.magnitude == m) with
    | none => exact magnitude_exact (Nat.pos_of_ne_zero h0) hfin
    | some d =>
      obtain ⟨i, -, hi⟩ := List.exists_of_findSome?_eq_some hfind
      simpa using List.find?_some hi

/-- Writing out the zeros of a positive exponent does not change what a decimal rounds to. -/
theorem magnitude_written {d : Decimal} (h : d.magnitude < Binary.infinity) :
    magnitude ⟨d.coefficient * 10 ^ d.exponent.toNat, -((-d.exponent).toNat : ℤ)⟩ =
      d.magnitude := by
  by_cases hneg : d.exponent ≤ 0
  · rw [show d.exponent.toNat = 0 by omega, pow_zero, mul_one,
      show -((-d.exponent).toNat : ℤ) = d.exponent by omega]
  · rw [show (-d.exponent).toNat = 0 by omega]
    by_cases h0 : d.coefficient = 0
    · simp [magnitude, h0]
    · have hbig : ¬ 400 < d.exponent := by
        intro hbig
        rw [magnitude, if_neg h0, if_pos hbig] at h
        exact lt_irrefl _ h
      have hd : d.magnitude = Binary.nearest (d.coefficient * 10 ^ d.exponent.toNat) 1 := by
        rw [magnitude, if_neg h0, if_neg hbig, if_neg (by omega),
          show (-d.exponent).toNat = 0 by omega, pow_zero]
      have hc : d.coefficient * 10 ^ d.exponent.toNat ≠ 0 := by positivity
      rw [hd, magnitude, if_neg hc]
      simp only [Nat.cast_zero, neg_zero, Int.toNat_zero, pow_zero, mul_one]
      rw [if_neg (by decide), if_neg (by omega)]

end Decimal

/-! ### Numbers -/

namespace Number

/-- The characters of a finite number: an optional sign, digits and an optional fraction, that
amount to the number. -/
theorem exists_text_chars {x : Float} (hx : Binary.isFinite x) :
    ∃ whole fraction, (text x).toList = (if Binary.isNegative x then ['-'] else []) ++
        (whole ++ Literal.fractionChars fraction) ∧ whole ≠ [] ∧
      (∀ c ∈ whole, Literal.isDigit c) ∧ (∀ c ∈ fraction, Literal.isDigit c) ∧
      Decimal.magnitude ⟨Literal.value (whole ++ fraction), -(fraction.length : ℤ)⟩ =
        Binary.magnitude x := by
  have hfin : Binary.magnitude x < Binary.infinity := by simpa [Binary.isFinite] using hx
  obtain ⟨whole, fraction, htext, hne, hwhole, hfraction, hvalue, hlength⟩ :=
    (Decimal.shortest .up (Binary.magnitude x)).exists_positional
  have hmag := Decimal.magnitude_shortest hfin .up
  refine ⟨whole, fraction, ?_, hne, hwhole, hfraction, ?_⟩
  · rw [text, if_neg (by omega), if_neg hfin.ne, String.toList_append, String.toList_ofList, htext]
    split <;> rfl
  · rw [hvalue, hlength, Decimal.magnitude_written (by rw [hmag]; exact hfin), hmag]

/-- **Numbers read back.** The text of a finite number is a literal that stands for it. -/
theorem exists_ofChars?_text {x : Float} (hx : Binary.isFinite x) :
    ∃ l, Literal.ofChars? (text x).toList = some l ∧ l.toFloat = x := by
  obtain ⟨whole, fraction, hchars, hne, hwhole, hfraction, hmag⟩ := exists_text_chars hx
  refine ⟨_, by rw [hchars]; exact Literal.ofChars?_signed _ hne hwhole hfraction, ?_⟩
  rw [Literal.toFloat, hmag, Binary.toFloat_magnitude]

theorem toInt?_toFloat {m k : ℕ} (hm : m < Binary.infinity) (hk : k < 2 ^ 63)
    (h : k * (Binary.ratio m).2 = (Binary.ratio m).1) (negative : Bool) :
    toInt? (Binary.toFloat negative m) = some (if negative then -(k : ℤ) else k) := by
  have hden : 0 < (Binary.ratio m).2 := by rw [Binary.ratio]; positivity
  rw [toInt?, Binary.isFinite, Binary.magnitude_toFloat hm.le, Binary.isNegative_toFloat hm.le,
    if_pos (by simpa using hm)]
  dsimp only
  rw [← h, Nat.mul_mod_left, Nat.mul_div_cancel _ hden, if_pos ⟨rfl, hk⟩]

/-- **Whole numbers are exact.** The number nearest to a whole number up to `2 ^ 53` is that whole
number. -/
theorem toInt?_whole {k : ℕ} (hk : k ≤ 2 ^ 53) (negative : Bool) :
    toInt? (Literal.toFloat ⟨negative, ⟨k, 0⟩⟩) = some (if negative then -(k : ℤ) else k) := by
  rcases Nat.eq_zero_or_pos k with rfl | h0
  · have hmag : Decimal.magnitude ⟨0, 0⟩ = 0 := rfl
    have hratio : 0 * (Binary.ratio 0).2 = (Binary.ratio 0).1 := by
      simp [Binary.ratio, Binary.mantissa]
    rw [Literal.toFloat, hmag]
    exact toInt?_toFloat (by decide) (by decide) hratio negative
  · obtain ⟨m, hpos, hfin, hratio⟩ := Binary.exists_ratio_eq_whole h0 hk
    have hmag : Decimal.magnitude ⟨k, 0⟩ = m := by
      simp only [Decimal.magnitude, h0.ne', Int.toNat_zero, neg_zero, pow_zero, mul_one, if_false]
      rw [if_neg (by decide), if_neg (by omega)]
      exact Binary.nearest_of_ratio hpos hfin.le one_pos (by rw [hratio, mul_one])
    rw [Literal.toFloat, hmag]
    exact toInt?_toFloat hfin (by omega) hratio negative

end Number

end FrameLisp
