import FrameLisp.Number.Binary
import Mathlib

/-!
# The parts of a number

A double is made of a sign and a magnitude, and it has the sign and the magnitude it is made of, as
long as the magnitude is not past that of infinity. Beyond infinity there are many patterns for one
value that is not a number.

What is known of patterns in general comes from the library that Mathlib rests on. No part of
Mathlib passes it on, so it is imported as a whole here.

## Main results

* `Binary.toFloat_magnitude` — a number is made of its parts
* `Binary.magnitude_toFloat`, `Binary.isNegative_toFloat` — it has the parts it is made of
-/

namespace FrameLisp

namespace Binary

/-- A number is made of its sign and its magnitude. -/
theorem toFloat_magnitude (x : Float) : toFloat (isNegative x) (magnitude x) = x := by
  have hlt := x.toBits.toNat_lt
  have hbits : (if isNegative x then 2 ^ 63 + magnitude x else magnitude x) = x.toBits.toNat := by
    simp only [isNegative, magnitude, decide_eq_true_eq]
    split <;> omega
  rw [toFloat, hbits, UInt64.ofNat_toNat, Float.ofBits_toBits]

section

open Float.Model Float.Model.UnpackedFloat

/-- A pattern that is admitted is kept. -/
theorem toBits_ofBits {b : UInt64} (hb : Format.binary64.Valid b.toBitVec) :
    (Float.ofBits b).toBits = b := by
  simp only [Float.ofBits, Float.toBits, Float.Model.ofBits, Float.Model.pack]
  rw [pack_unpack_of_valid hb]

/-- A pattern up to infinity, with either sign, is admitted. -/
theorem valid_of_magnitude_le {b : UInt64} (hb : b.toNat % 2 ^ 63 ≤ infinity) :
    Format.binary64.Valid b.toBitVec := by
  refine ⟨fun he hm => absurd ?_ hm⟩
  have he' : (@unpackExponent Format.binary64 b.toBitVec).toNat = 2047 := congrArg BitVec.toNat he
  have hexp : (@unpackExponent Format.binary64 b.toBitVec).toNat = b.toNat / 2 ^ 52 % 2 ^ 11 := by
    simp [unpackExponent, BitVec.extractLsb, Nat.shiftRight_eq_div_pow]
  have hman : (@unpackMantissa Format.binary64 b.toBitVec).toNat = b.toNat % 2 ^ 52 := by
    simp [unpackMantissa, BitVec.extractLsb]
  refine BitVec.eq_of_toNat_eq ?_
  change (@unpackMantissa Format.binary64 b.toBitVec).toNat = 0
  rw [infinity] at hb
  omega

end

theorem toBits_toFloat {m : ℕ} (hm : m ≤ infinity) (negative : Bool) :
    (toFloat negative m).toBits.toNat = if negative then 2 ^ 63 + m else m := by
  have hlt : (if negative then 2 ^ 63 + m else m) < 2 ^ 64 := by
    rw [infinity] at hm
    split <;> omega
  have hnat : (UInt64.ofNat (if negative then 2 ^ 63 + m else m)).toNat =
      if negative then 2 ^ 63 + m else m := UInt64.toNat_ofNat_of_lt' hlt
  rw [toFloat, toBits_ofBits (valid_of_magnitude_le ?_), hnat]
  rw [hnat, infinity] at *
  split <;> omega

@[simp] theorem magnitude_toFloat {m : ℕ} (hm : m ≤ infinity) (negative : Bool) :
    magnitude (toFloat negative m) = m := by
  rw [magnitude, toBits_toFloat hm]
  rw [infinity] at hm
  split <;> omega

@[simp] theorem isNegative_toFloat {m : ℕ} (hm : m ≤ infinity) (negative : Bool) :
    isNegative (toFloat negative m) = negative := by
  rw [isNegative, toBits_toFloat hm]
  rw [infinity] at hm
  cases negative with
  | false => simp; omega
  | true => simp

end Binary

end FrameLisp
