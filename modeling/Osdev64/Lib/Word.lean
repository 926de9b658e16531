/-
Sixty-four bit words as the arithmetic of masks and shifts.

A mask that keeps the high bits of a word is a division, one that keeps the low
bits is a remainder, and setting all high bits is an addition.  The statements
are about `toNat`, so that `omega` can finish what uses them.
-/

import Mathlib.Data.Nat.Bitwise

namespace Word64

abbrev Word := BitVec 64

theorem toNat_pos_of_ne {w : Nat} {word : BitVec w} (nonzero : word ≠ 0) : 0 < word.toNat := by
  apply Nat.pos_of_ne_zero
  intro zero
  exact nonzero (BitVec.eq_of_toNat_eq zero)

theorem toNat_and_high {w : Nat} (word : BitVec w) (low : Nat) :
    (word &&& (BitVec.allOnes w <<< low)).toNat = word.toNat / 2 ^ low * 2 ^ low := by
  have shifted : word &&& (BitVec.allOnes w <<< low) = (word >>> low) <<< low := by
    ext index inside
    by_cases below : index < low
    · simp [below]
    · have restored : low + (index - low) = index := by omega
      simp [below, restored, inside]
  rw [shifted, BitVec.toNat_shiftLeft, BitVec.toNat_ushiftRight,
    Nat.shiftRight_eq_div_pow, Nat.shiftLeft_eq]
  exact Nat.mod_eq_of_lt (Nat.lt_of_le_of_lt (Nat.div_mul_le_self _ _) word.isLt)

theorem or_ones {value bits : Nat} (small : value < 2 ^ bits) :
    value ||| (2 ^ bits - 1) = 2 ^ bits - 1 := by
  apply Nat.eq_of_testBit_eq
  intro index
  rw [Nat.testBit_or, Nat.testBit_two_pow_sub_one]
  by_cases below : index < bits
  · simp [below]
  · have high : value < 2 ^ index :=
      Nat.lt_of_lt_of_le small (Nat.pow_le_pow_right (by omega) (by omega))
    simp [below, Nat.testBit_lt_two_pow high]

theorem or_high {value low high : Nat} (small : value < 2 ^ (low + high)) :
    value ||| (2 ^ low * (2 ^ high - 1)) = value % 2 ^ low + 2 ^ low * (2 ^ high - 1) := by
  have positive : 0 < 2 ^ low := Nat.two_pow_pos low
  have quotient : (value ||| (2 ^ low * (2 ^ high - 1))) / 2 ^ low = 2 ^ high - 1 := by
    rw [Nat.or_div_two_pow, Nat.mul_div_cancel_left _ positive]
    apply or_ones
    rw [Nat.div_lt_iff_lt_mul positive, Nat.mul_comm, ← Nat.pow_add]
    exact small
  have remainder : (value ||| (2 ^ low * (2 ^ high - 1))) % 2 ^ low = value % 2 ^ low := by
    rw [Nat.or_mod_two_pow, Nat.mul_mod_right, Nat.or_zero]
  have split := Nat.mod_add_div (value ||| (2 ^ low * (2 ^ high - 1))) (2 ^ low)
  rw [quotient, remainder] at split
  exact split.symm

theorem toNat_shifted {v w : Nat} (word : BitVec v) {shift : Nat} (room : v + shift ≤ w) :
    (word.setWidth w <<< shift).toNat = word.toNat * 2 ^ shift := by
  have bound : word.toNat * 2 ^ shift < 2 ^ w :=
    calc word.toNat * 2 ^ shift < 2 ^ v * 2 ^ shift :=
          Nat.mul_lt_mul_of_pos_right word.isLt (Nat.two_pow_pos shift)
      _ = 2 ^ (v + shift) := (Nat.pow_add 2 v shift).symm
      _ ≤ 2 ^ w := Nat.pow_le_pow_right (by decide) room
  have narrow : word.toNat < 2 ^ w :=
    Nat.lt_of_lt_of_le word.isLt (Nat.pow_le_pow_right (by decide) (Nat.le_of_add_right_le room))
  rw [BitVec.toNat_shiftLeft, BitVec.toNat_setWidth, Nat.mod_eq_of_lt narrow, Nat.shiftLeft_eq,
    Nat.mod_eq_of_lt bound]

theorem toNat_or_of_lt {w : Nat} {high low : BitVec w} (bits : Nat) (clear : high.toNat % 2 ^ bits = 0)
    (small : low.toNat < 2 ^ bits) : (high ||| low).toNat = high.toNat + low.toNat := by
  have split : high.toNat = 2 ^ bits * (high.toNat / 2 ^ bits) :=
    (Nat.mul_div_cancel' (Nat.dvd_of_mod_eq_zero clear)).symm
  rw [BitVec.toNat_or, split, ← Nat.two_pow_add_eq_or_of_lt small, ← split]

theorem getLsbD_iff {w : Nat} (word : BitVec w) (bit : Nat) :
    word.getLsbD bit = true ↔ word.toNat / 2 ^ bit % 2 = 1 := by
  rw [BitVec.getLsbD, Nat.testBit_eq_decide_div_mod_eq, decide_eq_true_eq]

theorem and_twoPow_ne_zero_iff {w : Nat} (word : BitVec w) (bit : Nat) (inside : bit < w) :
    word &&& BitVec.twoPow w bit ≠ 0#w ↔ word.getLsbD bit = true := by
  have nonzero : BitVec.twoPow w bit ≠ 0#w := by
    intro zero
    have value := congrArg BitVec.toNat zero
    rw [BitVec.toNat_twoPow_of_lt inside, BitVec.toNat_zero] at value
    exact absurd value (Nat.two_pow_pos bit).ne'
  rw [BitVec.and_twoPow]
  cases word.getLsbD bit with
  | true => simpa using nonzero
  | false => simp

end Word64
