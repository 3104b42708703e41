import Mathlib.Data.BitVec

/-!
# Division of machine words

What a quotient and a remainder of two words have to be: exact division of the
numbers the words stand for, with a convention for a zero divisor and, signed,
for the one quotient that is not a word.  The words that the truncated integer
operations give satisfy all of it.
-/

namespace Division

variable {w : Nat}

/-- The quotient `q` and the remainder `r` of two signed words, truncated
toward zero. -/
structure Signed (a b q r : BitVec w) : Prop where
  byZero : b = 0 → q = -1 ∧ r = a
  overflow : a = BitVec.intMin w → b = -1 → q = BitVec.intMin w ∧ r = 0
  truncated : b ≠ 0 → ¬ (a = BitVec.intMin w ∧ b = -1) →
    q.toInt = a.toInt.tdiv b.toInt
  /-- The remainder has the sign of the dividend. -/
  sign : b ≠ 0 → r.toInt = 0 ∨ r.toInt.sign = a.toInt.sign
  magnitude : b ≠ 0 → r.toInt.natAbs < b.toInt.natAbs
  law : q * b + r = a

structure Unsigned (a b q r : BitVec w) : Prop where
  byZero : b = 0 → q = -1 ∧ r = a
  floored : b ≠ 0 → q.toNat = a.toNat / b.toNat
  magnitude : b ≠ 0 → r.toNat < b.toNat
  law : q * b + r = a

theorem ofInt_tdiv (a b : BitVec w) :
    BitVec.ofInt w (a.toInt.tdiv b.toInt) = a.sdiv b := by
  apply BitVec.eq_of_toInt_eq
  rw [BitVec.toInt_sdiv, BitVec.toInt_ofInt]

theorem ofInt_tmod (a b : BitVec w) :
    BitVec.ofInt w (a.toInt.tmod b.toInt) = a.srem b := by
  rw [← BitVec.toInt_srem, BitVec.ofInt_toInt]

theorem sdiv_mul_add_srem (a b : BitVec w) : a.sdiv b * b + a.srem b = a := by
  have divisor : BitVec.ofInt w b.toInt = b := BitVec.ofInt_toInt
  calc a.sdiv b * b + a.srem b
      = BitVec.ofInt w (a.toInt.tdiv b.toInt) * BitVec.ofInt w b.toInt +
          BitVec.ofInt w (a.toInt.tmod b.toInt) := by
        rw [ofInt_tdiv, ofInt_tmod, divisor]
    _ = BitVec.ofInt w (a.toInt.tdiv b.toInt * b.toInt + a.toInt.tmod b.toInt) := by
        rw [← BitVec.ofInt_mul, ← BitVec.ofInt_add]
    _ = a := by
        rw [Int.tdiv_mul_add_tmod, BitVec.ofInt_toInt]

theorem udiv_mul_add_umod (a b : BitVec w) : a / b * b + a % b = a := by
  apply BitVec.eq_of_toNat_eq
  have division := Nat.div_add_mod' a.toNat b.toNat
  rw [BitVec.toNat_add, BitVec.toNat_mul, BitVec.toNat_udiv, BitVec.toNat_umod,
    Nat.mod_add_mod, division]
  exact Nat.mod_eq_of_lt a.isLt

private theorem toInt_ne_zero {b : BitVec w} (nonzero : b ≠ 0) : b.toInt ≠ 0 := by
  intro zero
  apply nonzero
  apply BitVec.eq_of_toInt_eq
  rw [zero]
  exact BitVec.toInt_zero.symm

theorem srem_magnitude (a : BitVec w) {b : BitVec w} (nonzero : b ≠ 0) :
    (a.srem b).toInt.natAbs < b.toInt.natAbs := by
  rw [BitVec.toInt_srem, Int.natAbs_tmod]
  exact Nat.mod_lt _ (Int.natAbs_pos.mpr (toInt_ne_zero nonzero))

theorem srem_sign (a b : BitVec w) :
    (a.srem b).toInt = 0 ∨ (a.srem b).toInt.sign = a.toInt.sign := by
  rw [BitVec.toInt_srem, Int.sign_tmod]
  by_cases divides : b.toInt ∣ a.toInt
  · left
    exact Int.tmod_eq_zero_of_dvd divides
  · right
    exact if_neg divides

theorem toInt_neg_one (positive : 0 < w) : (-1 : BitVec w).toInt = -1 := by
  have ones : (-1 : BitVec w) = BitVec.allOnes w := BitVec.neg_one_eq_allOnes
  rw [ones, BitVec.toInt_allOnes, if_pos positive]

theorem sdiv_neg_one (positive : 0 < w) (a : BitVec w) : a.sdiv (-1) = -a := by
  apply BitVec.eq_of_toInt_eq
  rw [BitVec.toInt_sdiv, toInt_neg_one positive, Int.tdiv_neg, Int.tdiv_one,
    BitVec.toInt_neg]

theorem srem_neg_one (positive : 0 < w) (a : BitVec w) : a.srem (-1) = 0 := by
  apply BitVec.eq_of_toInt_eq
  rw [BitVec.toInt_srem, toInt_neg_one positive, Int.tmod_neg, Int.tmod_one]
  exact BitVec.toInt_zero.symm

theorem signed_of_truncated (positive : 0 < w) (a b : BitVec w) :
    Signed a b (if b = 0 then -1 else BitVec.ofInt w (a.toInt.tdiv b.toInt))
      (if b = 0 then a else BitVec.ofInt w (a.toInt.tmod b.toInt)) := by
  rw [ofInt_tdiv, ofInt_tmod]
  by_cases zero : b = 0
  · rw [if_pos zero, if_pos zero]
    have notMinusOne : b ≠ -1 := by
      intro minusOne
      have value := toInt_neg_one positive
      rw [← minusOne, zero] at value
      cases BitVec.toInt_zero.symm.trans value
    refine ⟨fun _ => ⟨rfl, rfl⟩, fun _ minusOne => absurd minusOne notMinusOne,
      fun nonzero => absurd zero nonzero, fun nonzero => absurd zero nonzero,
      fun nonzero => absurd zero nonzero, ?_⟩
    rw [zero]
    exact (congrArg (· + a) BitVec.mul_zero).trans (BitVec.zero_add a)
  · rw [if_neg zero, if_neg zero]
    refine ⟨fun isZero => absurd isZero zero, ?_, ?_, fun _ => srem_sign a b,
      fun _ => srem_magnitude a zero, sdiv_mul_add_srem a b⟩
    · rintro rfl rfl
      exact ⟨(sdiv_neg_one positive _).trans BitVec.neg_intMin, srem_neg_one positive _⟩
    · intro _ fits
      exact BitVec.toInt_sdiv_of_ne_or_ne a b (not_and_or.mp fits)

theorem unsigned_of_floored (a b : BitVec w) :
    Unsigned a b (if b = 0 then -1 else BitVec.ofNat w (a.toNat / b.toNat))
      (if b = 0 then a else BitVec.ofNat w (a.toNat % b.toNat)) := by
  by_cases zero : b = 0
  · rw [if_pos zero, if_pos zero]
    refine ⟨fun _ => ⟨rfl, rfl⟩, fun nonzero => absurd zero nonzero,
      fun nonzero => absurd zero nonzero, ?_⟩
    rw [zero]
    exact (congrArg (· + a) BitVec.mul_zero).trans (BitVec.zero_add a)
  · rw [if_neg zero, if_neg zero, ← BitVec.udiv_def, ← BitVec.umod_def]
    refine ⟨fun isZero => absurd isZero zero, fun _ => BitVec.toNat_udiv, ?_,
      udiv_mul_add_umod a b⟩
    intro nonzero
    rw [BitVec.toNat_umod]
    apply Nat.mod_lt
    apply Nat.pos_of_ne_zero
    intro value
    exact nonzero (BitVec.eq_of_toNat_eq (value.trans BitVec.toNat_zero.symm))

end Division
