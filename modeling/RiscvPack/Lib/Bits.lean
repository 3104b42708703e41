import Mathlib.Data.BitVec
import Mathlib.Tactic.Ring
import Mathlib.Tactic.IntervalCases

/-!
# Bit fields, sign extension and byte order

Facts about fixed-width words that instruction encoders, decoders and
byte-addressed memories share.  Nothing here mentions a particular
instruction set: the widths are parameters wherever the argument allows it.
-/

namespace Bits

theorem xor_twoPow_of_clear {w k : Nat} {x : BitVec w}
    (clear : x.getLsbD k = false) :
    x ^^^ BitVec.twoPow w k = x + BitVec.twoPow w k := by
  have disjoint : x &&& BitVec.twoPow w k = 0#w := by
    rw [BitVec.and_twoPow, clear]
    rfl
  rw [BitVec.add_eq_or_of_and_eq_zero _ _ disjoint]
  apply BitVec.eq_of_getLsbD_eq
  intro i _inRange
  simp only [BitVec.getLsbD_xor, BitVec.getLsbD_or, BitVec.getLsbD_twoPow]
  by_cases same : k = i
  · subst same
    simp [clear]
  · simp [same]

theorem xor_twoPow_of_set {w k : Nat} {x : BitVec w}
    (set : x.getLsbD k = true) :
    x ^^^ BitVec.twoPow w k = x - BitVec.twoPow w k := by
  have inRange : k < w := BitVec.lt_of_getLsbD set
  have clear : (x ^^^ BitVec.twoPow w k).getLsbD k = false := by
    simp [set, inRange]
  have restored := xor_twoPow_of_clear clear
  rw [BitVec.xor_assoc, BitVec.xor_self, BitVec.xor_zero] at restored
  exact BitVec.eq_sub_iff_add_eq.mpr restored.symm

private theorem twoPow_eq_ofInt (w n : Nat) :
    BitVec.twoPow w n = BitVec.ofInt w (2 ^ n) := by
  apply BitVec.eq_of_toNat_eq
  rw [BitVec.toNat_twoPow, show (2 : Int) ^ n = ((2 ^ n : Nat) : Int) by
    push_cast; rfl, BitVec.ofInt_natCast, BitVec.toNat_ofNat]

private theorem setWidth_eq_ofInt {n : Nat} (w : Nat) (v : BitVec n) :
    v.setWidth w = BitVec.ofInt w v.toNat := by
  rw [BitVec.ofInt_natCast, BitVec.ofNat_toNat]

/-- The exclusive-or trick for sign extension: flip the sign bit, then
subtract its weight. -/
theorem signExtend_eq_xor_sub {n w : Nat} (v : BitVec (n + 1)) (fits : n < w) :
    (v.setWidth w ^^^ BitVec.twoPow w n) - BitVec.twoPow w n =
      v.signExtend w := by
  have signBit : (v.setWidth w).getLsbD n = v.msb := by
    simp [BitVec.msb_eq_getLsbD_last, fits]
  cases sign : v.msb with
  | false =>
      rw [xor_twoPow_of_clear (signBit.trans sign), BitVec.add_sub_cancel,
        BitVec.signExtend_eq_setWidth_of_msb_false sign]
  | true =>
      rw [xor_twoPow_of_set (signBit.trans sign), BitVec.signExtend,
        BitVec.toInt_eq_msb_cond, if_pos sign]
      symm
      rw [BitVec.eq_sub_iff_add_eq, BitVec.eq_sub_iff_add_eq,
        twoPow_eq_ofInt, setWidth_eq_ofInt, ← BitVec.ofInt_add,
        ← BitVec.ofInt_add]
      congr 1
      push_cast
      ring

/-- A word whose signed value fits `n` bits is recovered from its low `n`
bits. -/
theorem signExtend_setWidth_of_fits {w n : Nat} (x : BitVec w) (positive : 0 < n)
    (narrow : n ≤ w) (lower : -2 ^ (n - 1) ≤ x.toInt)
    (upper : x.toInt < 2 ^ (n - 1)) : (x.setWidth n).signExtend w = x := by
  have residue : (x.setWidth n).toInt = x.toInt := by
    rw [BitVec.toInt_setWidth]
    have same : (x.toNat : Int).bmod (2 ^ n) = x.toInt.bmod (2 ^ n) := by
      rw [BitVec.toInt_eq_toNat_bmod, Int.bmod_bmod_of_dvd]
      exact_mod_cast Nat.pow_dvd_pow 2 narrow
    rw [same, Int.bmod_eq_of_le_mul_two]
    · obtain ⟨m, rfl⟩ := Nat.exists_eq_succ_of_ne_zero positive.ne'
      simp only [Nat.succ_sub_one] at lower
      rw [Nat.pow_succ]
      push_cast
      omega
    · obtain ⟨m, rfl⟩ := Nat.exists_eq_succ_of_ne_zero positive.ne'
      simp only [Nat.succ_sub_one] at upper
      rw [Nat.pow_succ]
      push_cast
      omega
  rw [BitVec.signExtend, residue, BitVec.ofInt_toInt]

section Splitting

theorem sshiftRight_shiftLeft {w : Nat} (y : BitVec w) (k : Nat) :
    (y.sshiftRight k) <<< k = y - (y.setWidth k).setWidth w := by
  rw [BitVec.eq_sub_iff_add_eq, BitVec.add_eq_or_of_and_eq_zero]
  · apply BitVec.eq_of_getLsbD_eq
    intro i inRange
    simp only [BitVec.getLsbD_or, BitVec.getLsbD_shiftLeft,
      BitVec.getLsbD_sshiftRight, BitVec.getLsbD_setWidth]
    by_cases low : i < k
    · simp [low, inRange]
    · have back : k + (i - k) = i := by omega
      simp [low, inRange, back]
      omega
  · apply BitVec.eq_of_getLsbD_eq
    intro i _inRange
    simp only [BitVec.getLsbD_and, BitVec.getLsbD_shiftLeft,
      BitVec.getLsbD_setWidth, BitVec.getLsbD_zero]
    by_cases low : i < k <;> simp [low]

theorem sub_rounded {w : Nat} (x : BitVec w) (k : Nat) :
    x - ((x + BitVec.twoPow w k).sshiftRight (k + 1)) <<< (k + 1) =
      BitVec.ofInt w
        (((x + BitVec.twoPow w k).setWidth (k + 1)).toNat - 2 ^ k) := by
  rw [sshiftRight_shiftLeft, Int.sub_eq_add_neg, BitVec.ofInt_add,
    BitVec.ofInt_neg, ← twoPow_eq_ofInt, ← setWidth_eq_ofInt]
  ring

/-- Rounding to the nearest multiple of `2 ^ (k + 1)` leaves a remainder that
fits `k + 1` signed bits. -/
theorem toInt_sub_rounded {w : Nat} (x : BitVec w) (k : Nat) (fits : k + 1 < w) :
    -(2 ^ k : Int) ≤
        (x - ((x + BitVec.twoPow w k).sshiftRight (k + 1)) <<< (k + 1)).toInt ∧
      (x - ((x + BitVec.twoPow w k).sshiftRight (k + 1)) <<< (k + 1)).toInt <
        (2 ^ k : Int) := by
  rw [sub_rounded]
  generalize (x + BitVec.twoPow w k).setWidth (k + 1) = residue
  have below : (residue.toNat : Int) < 2 ^ k + 2 ^ k := by
    have small := residue.isLt
    rw [Nat.pow_succ] at small
    have := Int.ofNat_lt.mpr small
    push_cast at this
    omega
  have grows : (2 : Int) ^ k ≤ 2 ^ (w - 1) :=
    pow_le_pow_right₀ (by decide) (by omega)
  rw [BitVec.toInt_ofInt_eq_self (by omega) (by omega) (by omega)]
  omega

theorem toInt_sshiftRight_bounds {w : Nat} (x : BitVec w) (k : Nat)
    (fits : k < w) :
    -(2 ^ (w - 1 - k) : Int) ≤ (x.sshiftRight k).toInt ∧
      (x.sshiftRight k).toInt < (2 ^ (w - 1 - k) : Int) := by
  rw [BitVec.toInt_sshiftRight, Int.shiftRight_eq_div_pow]
  have split : (2 : Int) ^ (w - 1) = 2 ^ (w - 1 - k) * 2 ^ k := by
    rw [← pow_add]
    congr 1
    omega
  have lower := x.le_toInt
  have upper := x.toInt_lt
  have positive : (0 : Int) < 2 ^ k := by positivity
  push_cast
  rw [split] at lower upper
  constructor
  · apply Int.le_ediv_of_mul_le positive
    rw [neg_mul]
    exact lower
  · exact Int.ediv_lt_of_lt_mul positive upper

end Splitting

section ByteOrder

/-- The four bytes of a word, least significant first. -/
def leBytes (w : BitVec 32) : List (BitVec 8) :=
  [w.extractLsb' 0 8, w.extractLsb' 8 8, w.extractLsb' 16 8, w.extractLsb' 24 8]

@[simp] theorem length_leBytes (w : BitVec 32) : (leBytes w).length = 4 := rfl

theorem length_flatMap_leBytes (words : List (BitVec 32)) :
    (words.flatMap leBytes).length = 4 * words.length := by
  rw [List.length_flatMap]
  simp [Nat.mul_comm]

/-- The word whose bytes, least significant first, are the arguments. -/
def ofLeBytes (b0 b1 b2 b3 : BitVec 8) : BitVec 32 :=
  b0.setWidth 32 ||| (b1.setWidth 32 <<< 8) ||| (b2.setWidth 32 <<< 16) |||
    (b3.setWidth 32 <<< 24)

theorem ofLeBytes_extract (w : BitVec 32) :
    ofLeBytes (w.extractLsb' 0 8) (w.extractLsb' 8 8) (w.extractLsb' 16 8)
      (w.extractLsb' 24 8) = w := by
  apply BitVec.eq_of_getLsbD_eq
  intro i inRange
  interval_cases i <;> simp [ofLeBytes]

end ByteOrder

section Addresses

theorem toNat_offset {w : Nat} {a : BitVec w} (n : Nat) (fits : a.toNat + n < 2 ^ w) :
    (a + BitVec.ofNat w n).toNat = a.toNat + n := by
  rw [BitVec.toNat_add, BitVec.toNat_ofNat, Nat.mod_eq_of_lt (by omega : n < 2 ^ w)]
  exact Nat.mod_eq_of_lt fits

end Addresses

end Bits
