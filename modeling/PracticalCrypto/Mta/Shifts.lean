import Mathlib.Data.Nat.ModEq
import PracticalCrypto.Mta.Single

/-!
# Shifts of a whole register

`shift_left_bits` and `shift_right_bits` of `surf-impl/src/mta/F2128MtA.inl` shift a register of
128 bits by a number of bits that is known at compile time, out of instructions that shift the
register by bytes or its halves by bits. For 64 bits and more, the shift to the right moves the
upper half down and shifts it by the bits that remain. The shift to the left moves the lower half
up, and then shifts by as many bytes as bits remain.
-/

namespace PracticalCrypto.F2128Mta

open Sse

section Arithmetic

/-- A product with a larger power of two is the same, modulo a power of two, only if it is zero. -/
theorem mul_two_pow_modEq_iff {n a more : ℕ} (larger : 0 < more) :
    a * 2 ^ more ≡ a [MOD 2 ^ n] ↔ a % 2 ^ n = 0 := by
  have odd : Nat.Coprime (2 ^ n) (2 ^ more - 1) := by
    apply Nat.Coprime.pow_left
    rw [Nat.coprime_two_left]
    obtain ⟨fewer, rfl⟩ : ∃ fewer, more = fewer + 1 := ⟨more - 1, by omega⟩
    have positive : 1 ≤ 2 ^ fewer := Nat.one_le_two_pow
    refine ⟨2 ^ fewer - 1, ?_⟩
    rw [pow_succ]
    omega
  rw [← Nat.dvd_iff_mod_eq_zero]
  constructor
  · intro same
    have divides := (Nat.modEq_iff_dvd' (Nat.le_mul_of_pos_right a (by positivity))).mp same.symm
    have factored : a * 2 ^ more - a = a * (2 ^ more - 1) := by
      rw [Nat.mul_sub, Nat.mul_one]
    rw [factored] at divides
    exact odd.dvd_of_dvd_mul_right divides
  · intro divides
    exact (Nat.modEq_zero_iff_dvd.mpr (divides.mul_right _)).trans
      (Nat.modEq_zero_iff_dvd.mpr divides).symm

end Arithmetic

section Shifts

variable (x : BitVec 128)

/-- Beyond 64, every bit counts for a byte. -/
theorem toNat_shiftLeftBits_of_ge {bits : ℕ} (large : 64 ≤ bits) :
    (shiftLeftBits bits x).toNat = x.toNat * 2 ^ bits * 2 ^ (7 * (bits - 64)) % 2 ^ 128 := by
  have amount : 8 * 8 + 8 * (bits - 64) = bits + 7 * (bits - 64) := by omega
  rw [shiftLeftBits, if_pos large, slliSi128, slliSi128, ← BitVec.shiftLeft_add,
    BitVec.toNat_shiftLeft, Nat.shiftLeft_eq, amount, pow_add, mul_assoc]

theorem toNat_shiftLeftBits_of_le {bits : ℕ} (small : bits ≤ 64) :
    (shiftLeftBits bits x).toNat = x.toNat * 2 ^ bits % 2 ^ 128 := by
  rcases Nat.lt_or_eq_of_le small with less | rfl
  · rw [shiftLeftBits_eq x less, BitVec.toNat_shiftLeft, Nat.shiftLeft_eq]
  · simpa using toNat_shiftLeftBits_of_ge x le_rfl

theorem shiftRightBits_of_ge {bits : ℕ} (large : 64 ≤ bits) :
    shiftRightBits bits x = x >>> bits := by
  apply BitVec.eq_of_getLsbD_eq
  intro i inRegister
  rw [shiftRightBits, if_pos large]
  simp only [srliEpi64, half, srliSi128, BitVec.getLsbD_append, BitVec.getLsbD_ushiftRight,
    BitVec.getLsbD_extractLsb']
  split_ifs with low
  · by_cases near : bits - 64 + i < 64
    · have index : 64 + (bits - 64 + i) = bits + i := by omega
      simp [near, index]
    · rw [BitVec.getLsbD_of_ge x (bits + i) (by omega)]
      simp [near]
  · rw [BitVec.getLsbD_of_ge x (bits + i) (by omega), BitVec.getLsbD_of_ge x _ (by omega)]
    simp

theorem toNat_shiftRightBits (bits : ℕ) : (shiftRightBits bits x).toNat = x.toNat / 2 ^ bits := by
  have logical : shiftRightBits bits x = x >>> bits := by
    rcases Nat.lt_or_ge bits 64 with small | large
    · exact shiftRightBits_eq x small
    · exact shiftRightBits_of_ge x large
  rw [logical, BitVec.toNat_ushiftRight, Nat.shiftRight_eq_div_pow]

/-- The shift to the right is logical. The shift to the left is for at most 64 bits, and beyond
that exactly if all bits are shifted out. -/
theorem shiftBits_logical_iff (bits : ℕ) (x : BitVec 128) :
    ((shiftLeftBits bits x).toNat = x.toNat * 2 ^ bits % 2 ^ 128 ↔
      bits ≤ 64 ∨ x.toNat * 2 ^ bits % 2 ^ 128 = 0) ∧
    (shiftRightBits bits x).toNat = x.toNat / 2 ^ bits := by
  refine ⟨?_, toNat_shiftRightBits x bits⟩
  rcases Nat.lt_or_ge 64 bits with large | small
  · have larger : 0 < 7 * (bits - 64) := by omega
    rw [toNat_shiftLeftBits_of_ge x large.le, or_iff_right (by omega)]
    exact mul_two_pow_modEq_iff larger
  · simp [toNat_shiftLeftBits_of_le x small, small]

/-- A shift by 65 moves a bit to the place 72. -/
theorem shiftLeftBits_sixtyFive :
    (shiftLeftBits 65 1#128).toNat = 2 ^ 72 ∧ (1#128).toNat * 2 ^ 65 % 2 ^ 128 = 2 ^ 65 := by
  decide

end Shifts

end PracticalCrypto.F2128Mta
