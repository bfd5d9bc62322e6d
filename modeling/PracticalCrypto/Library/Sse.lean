import Mathlib.Tactic.IntervalCases
import PracticalCrypto.Library.BinaryWord

/-!
# Vector instructions on 128-bit registers

The instructions that an implementation of a binary field uses: shifts and
shuffles of the four 32-bit lanes, byte shifts of the register, and the
carry-less product of two 64-bit halves. A register is read as a binary
polynomial through `BinaryWord.value`.
-/

namespace PracticalCrypto.Sse

open BinaryWord

section Instructions

def lane (a : BitVec 128) (i : ℕ) : BitVec 32 := a.extractLsb' (32 * i) 32

def half (a : BitVec 128) (i : ℕ) : BitVec 64 := a.extractLsb' (64 * i) 64

def ofLanes (lanes : ℕ → BitVec 32) : BitVec 128 := lanes 3 ++ lanes 2 ++ lanes 1 ++ lanes 0

/-- `_mm_shuffle_epi32`. -/
def shuffleEpi32 (a : BitVec 128) (imm : ℕ) : BitVec 128 :=
  ofLanes fun i => lane a (imm / 4 ^ i % 4)

/-- `_mm_slli_epi32`. -/
def slliEpi32 (a : BitVec 128) (count : ℕ) : BitVec 128 := ofLanes fun i => lane a i <<< count

/-- `_mm_srli_epi32`. -/
def srliEpi32 (a : BitVec 128) (count : ℕ) : BitVec 128 := ofLanes fun i => lane a i >>> count

/-- `_mm_slli_si128`, which counts bytes. -/
def slliSi128 (a : BitVec 128) (bytes : ℕ) : BitVec 128 := a <<< (8 * bytes)

/-- `_mm_srli_si128`, which counts bytes. -/
def srliSi128 (a : BitVec 128) (bytes : ℕ) : BitVec 128 := a >>> (8 * bytes)

/-- `_mm_slli_epi64`. -/
def slliEpi64 (a : BitVec 128) (count : ℕ) : BitVec 128 := half a 1 <<< count ++ half a 0 <<< count

/-- `_mm_srli_epi64`. -/
def srliEpi64 (a : BitVec 128) (count : ℕ) : BitVec 128 := half a 1 >>> count ++ half a 0 >>> count

/-- `_mm_andnot_si128`, which negates its first operand. -/
def andnotSi128 (a b : BitVec 128) : BitVec 128 := ~~~a &&& b

/-- `_mm_setr_epi32`. -/
def setrEpi32 (first second third fourth : BitVec 32) : BitVec 128 :=
  ofLanes fun i => [first, second, third, fourth].getD i 0

/-- `_mm_clmulepi64_si128`. -/
def clmulepi64Si128 (a b : BitVec 128) (imm : ℕ) : BitVec 128 :=
  clmul (half a (imm % 2)) (half b (imm / 16 % 2))

end Instructions

section Lanes

theorem getLsbD_ofLanes (lanes : ℕ → BitVec 32) {j : ℕ} (inRegister : j < 128) :
    (ofLanes lanes).getLsbD j = (lanes (j / 32)).getLsbD (j % 32) := by
  obtain ⟨i, rest, rfl, small⟩ : ∃ i rest, j = 32 * i + rest ∧ rest < 32 :=
    ⟨j / 32, j % 32, by omega, by omega⟩
  have quotient : (32 * i + rest) / 32 = i := by omega
  have remainder : (32 * i + rest) % 32 = rest := by omega
  have inLanes : i < 4 := by omega
  rw [quotient, remainder]
  interval_cases i <;> simp only [ofLanes, BitVec.getLsbD_append]
  · simp [small]
  · grind
  · grind
  · grind

theorem lane_ofLanes (lanes : ℕ → BitVec 32) {i : ℕ} (inLanes : i < 4) :
    lane (ofLanes lanes) i = lanes i := by
  apply BitVec.eq_of_getLsbD_eq
  intro j inLane
  rw [lane, BitVec.getLsbD_extractLsb', getLsbD_ofLanes _ (by omega)]
  have quotient : (32 * i + j) / 32 = i := by omega
  have remainder : (32 * i + j) % 32 = j := by omega
  simp [quotient, remainder, inLane]

theorem ofLanes_lane (a : BitVec 128) : ofLanes (lane a) = a := by
  apply BitVec.eq_of_getLsbD_eq
  intro j inRegister
  rw [getLsbD_ofLanes _ inRegister, lane, BitVec.getLsbD_extractLsb', Nat.div_add_mod]
  simp [Nat.mod_lt]

theorem ext_lane {a b : BitVec 128} (same : ∀ i < 4, lane a i = lane b i) : a = b := by
  rw [← ofLanes_lane a, ← ofLanes_lane b]
  simp only [ofLanes, same 0 (by decide), same 1 (by decide), same 2 (by decide),
    same 3 (by decide)]

@[simp]
theorem lane_xor (a b : BitVec 128) (i : ℕ) : lane (a ^^^ b) i = lane a i ^^^ lane b i :=
  BitVec.extractLsb'_xor

@[simp]
theorem lane_and (a b : BitVec 128) (i : ℕ) : lane (a &&& b) i = lane a i &&& lane b i :=
  BitVec.extractLsb'_and

theorem lane_andnotSi128 (a b : BitVec 128) {i : ℕ} (inLanes : i < 4) :
    lane (andnotSi128 a b) i = ~~~lane a i &&& lane b i := by
  apply BitVec.eq_of_getLsbD_eq
  intro j inLane
  have inRegister : 32 * i + j < 128 := by omega
  simp [andnotSi128, lane, inLane, inRegister]

theorem half_eq_lanes (a : BitVec 128) (i : ℕ) :
    half a i = lane a (2 * i + 1) ++ lane a (2 * i) := by
  apply BitVec.eq_of_getLsbD_eq
  intro j inHalf
  simp only [half, lane, BitVec.getLsbD_append, BitVec.getLsbD_extractLsb']
  split_ifs with inLow
  · simp only [inHalf, inLow, decide_true, Bool.true_and]
    congr 1
    omega
  · have inHigh : j - 32 < 32 := by omega
    simp only [inHalf, inHigh, decide_true, Bool.true_and]
    congr 1
    omega

theorem half_xor (a b : BitVec 128) (i : ℕ) : half (a ^^^ b) i = half a i ^^^ half b i :=
  BitVec.extractLsb'_xor

end Lanes

section Values

variable {R : Type*} [CommRing R] (x : R)

theorem value_ofLanes (lanes : ℕ → BitVec 32) :
    value x (ofLanes lanes) = value x (lanes 0) + x ^ 32 * value x (lanes 1) +
      x ^ 64 * value x (lanes 2) + x ^ 96 * value x (lanes 3) := by
  simp only [ofLanes, value_append]
  ring

theorem value_eq_halves (a : BitVec 128) :
    value x a = value x (half a 0) + x ^ 64 * value x (half a 1) := by
  have lanes := value_ofLanes x (lane a)
  rw [ofLanes_lane] at lanes
  rw [half_eq_lanes, half_eq_lanes, value_append, value_append, lanes]
  ring

theorem half_shuffleEpi32 (a : BitVec 128) : half (shuffleEpi32 a 78) 0 = half a 1 := by
  rw [half_eq_lanes, half_eq_lanes, shuffleEpi32, lane_ofLanes _ (by decide),
    lane_ofLanes _ (by decide)]
  rfl

theorem value_slliSi128 (a : BitVec 128) :
    value x (slliSi128 a 8) = x ^ 64 * value x (half a 0) := by
  have shifted : slliSi128 a 8 = half a 0 ++ 0#64 := by
    apply BitVec.eq_of_getLsbD_eq
    intro j inRegister
    simp only [slliSi128, half, BitVec.getLsbD_append, BitVec.getLsbD_extractLsb',
      BitVec.getLsbD_shiftLeft, inRegister]
    split_ifs with inLow
    · simp [inLow]
    · have inHigh : j - 64 < 64 := by omega
      simp [inLow, inHigh]
  rw [shifted, value_append, value_zero, zero_add]

theorem value_srliSi128 (a : BitVec 128) : value x (srliSi128 a 8) = value x (half a 1) := by
  have shifted : srliSi128 a 8 = 0#64 ++ half a 1 := by
    apply BitVec.eq_of_getLsbD_eq
    intro j inRegister
    simp only [srliSi128, half, BitVec.getLsbD_append, BitVec.getLsbD_extractLsb',
      BitVec.getLsbD_ushiftRight]
    split_ifs with inLow
    · simp [inLow]
    · rw [BitVec.getLsbD_of_ge a _ (by omega)]
      simp
  rw [shifted, value_append, value_zero, mul_zero, add_zero]

theorem value_clmulepi64Si128 [CharP R 2] (a b : BitVec 128) (imm : ℕ) :
    value x (clmulepi64Si128 a b imm) =
      value x (half a (imm % 2)) * value x (half b (imm / 16 % 2)) :=
  value_clmul x _ _

end Values

end PracticalCrypto.Sse
