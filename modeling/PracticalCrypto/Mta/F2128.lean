import Mathlib.Tactic.LinearCombination
import PracticalCrypto.Library.Gf128
import PracticalCrypto.Library.Sse
import PracticalCrypto.Library.Wires

/-!
# The field arithmetic of the MtA

This file embeds `F2128_MTA::mul` and `F2128_MTA::inv` of
`surf-impl/src/mta/F2128MtA.inl`. A register is a word of 128 bits. `mul`
multiplies its operands as binary polynomials, with the product in two registers,
and then folds the high one into the low one.
-/

namespace PracticalCrypto.F2128Mta

open BinaryWord Sse

section Model

/-- `F2128_MTA::mul`. -/
def mul (a b : BitVec 128) : BitVec 128 :=
  let xmmMask := setrEpi32 (-1#32) 0 0 0
  let tmp3 := clmulepi64Si128 a b 0x00
  let tmp6 := clmulepi64Si128 a b 0x11
  let tmp4 := shuffleEpi32 a 78
  let tmp5 := shuffleEpi32 b 78
  let tmp4 := tmp4 ^^^ a
  let tmp5 := tmp5 ^^^ b
  let tmp4 := clmulepi64Si128 tmp4 tmp5 0x00
  let tmp4 := tmp4 ^^^ tmp3
  let tmp4 := tmp4 ^^^ tmp6
  let tmp5 := slliSi128 tmp4 8
  let tmp4 := srliSi128 tmp4 8
  let tmp3 := tmp3 ^^^ tmp5
  let tmp6 := tmp6 ^^^ tmp4
  let tmp7 := srliEpi32 tmp6 31
  let tmp8 := srliEpi32 tmp6 30
  let tmp9 := srliEpi32 tmp6 25
  let tmp7 := tmp7 ^^^ tmp8
  let tmp7 := tmp7 ^^^ tmp9
  let tmp8 := shuffleEpi32 tmp7 147
  let tmp7 := xmmMask &&& tmp8
  let tmp8 := andnotSi128 xmmMask tmp8
  let tmp3 := tmp3 ^^^ tmp8
  let tmp6 := tmp6 ^^^ tmp7
  let tmp10 := slliEpi32 tmp6 1
  let tmp3 := tmp3 ^^^ tmp10
  let tmp11 := slliEpi32 tmp6 2
  let tmp3 := tmp3 ^^^ tmp11
  let tmp12 := slliEpi32 tmp6 7
  let tmp3 := tmp3 ^^^ tmp12
  tmp6 ^^^ tmp3

/-- `F2128_MTA::inv`. -/
def inv (a : BitVec 128) : BitVec 128 :=
  (fun curr => mul (mul curr a) (mul curr a))^[127] 1#128

/-- `F2128_MTA::arr_to_block`, which puts byte zero into the lowest bits. -/
def arrToBlock (bytes : Fin 16 → UInt8) : BitVec 128 :=
  BitVec.ofNat 128 (Wires.toNat (Wires.ofBytes (List.ofFn bytes)))

/-- `F2128_MTA::block_to_arr`. -/
def blockToArr (block : BitVec 128) : Fin 16 → UInt8 := fun i =>
  UInt8.ofBitVec (block.extractLsb' (8 * i.val) 8)

end Model

section Bytes

theorem getLsbD_arrToBlock (bytes : Fin 16 → UInt8) {i : ℕ} (inBytes : i / 8 < 16) :
    (arrToBlock bytes).getLsbD i = (bytes ⟨i / 8, inBytes⟩).toNat.testBit (i % 8) := by
  have inBlock : i < 128 := by omega
  rw [arrToBlock, BitVec.getLsbD_ofNat, Wires.testBit_toNat, Wires.getD_ofBytes,
    Wires.getD_ofFn _ _ inBytes, decide_eq_true inBlock, Bool.true_and]

theorem arrToBlock_xor (a b : Fin 16 → UInt8) :
    arrToBlock (fun i => a i ^^^ b i) = arrToBlock a ^^^ arrToBlock b := by
  apply BitVec.eq_of_getLsbD_eq
  intro i inBlock
  have inBytes : i / 8 < 16 := by omega
  rw [BitVec.getLsbD_xor, getLsbD_arrToBlock _ inBytes, getLsbD_arrToBlock _ inBytes,
    getLsbD_arrToBlock _ inBytes, UInt8.toNat_xor, Nat.testBit_xor]

theorem arrToBlock_blockToArr (block : BitVec 128) : arrToBlock (blockToArr block) = block := by
  apply BitVec.eq_of_getLsbD_eq
  intro i inBlock
  have bit : ∀ j < 8, ∀ byte : BitVec 8, (UInt8.ofBitVec byte).toNat.testBit j =
      byte.getLsbD j := fun _ _ _ => rfl
  rw [getLsbD_arrToBlock _ (by omega), blockToArr, bit _ (Nat.mod_lt i (by decide)),
    BitVec.getLsbD_extractLsb', Nat.div_add_mod]
  simp [Nat.mod_lt]

end Bytes

section Steps

/-- The mixed terms of the product. -/
def middle (a b : BitVec 128) : BitVec 128 :=
  clmulepi64Si128 (shuffleEpi32 a 78 ^^^ a) (shuffleEpi32 b 78 ^^^ b) 0x00 ^^^
    clmulepi64Si128 a b 0x00 ^^^ clmulepi64Si128 a b 0x11

/-- The registers `tmp3` and `tmp6` before the reduction. -/
def product (a b : BitVec 128) : BitVec 128 × BitVec 128 :=
  (clmulepi64Si128 a b 0x00 ^^^ slliSi128 (middle a b) 8,
    clmulepi64Si128 a b 0x11 ^^^ srliSi128 (middle a b) 8)

/-- The part of `mul` after `tmp3` and `tmp6` are complete. -/
def reduce (low high : BitVec 128) : BitVec 128 :=
  let xmmMask := setrEpi32 (-1#32) 0 0 0
  let moved := shuffleEpi32 (srliEpi32 high 31 ^^^ srliEpi32 high 30 ^^^ srliEpi32 high 25) 147
  let high := high ^^^ (xmmMask &&& moved)
  high ^^^ (low ^^^ andnotSi128 xmmMask moved ^^^ slliEpi32 high 1 ^^^ slliEpi32 high 2 ^^^
    slliEpi32 high 7)

theorem mul_eq (a b : BitVec 128) : mul a b = reduce (product a b).1 (product a b).2 := rfl

variable {R : Type*} [CommRing R] [CharP R 2] (x : R)

theorem value_middle (a b : BitVec 128) :
    value x (middle a b) =
      value x (half a 0) * value x (half b 1) + value x (half a 1) * value x (half b 0) := by
  have two : (2 : R) = 0 := CharTwo.two_eq_zero
  simp only [middle, value_xor, value_clmulepi64Si128, half_xor, half_shuffleEpi32, Nat.reduceMod,
    Nat.reduceDiv]
  linear_combination (value x (half a 0) * value x (half b 0) +
    value x (half a 1) * value x (half b 1)) * two

theorem value_product (a b : BitVec 128) :
    value x (product a b).1 + x ^ 128 * value x (product a b).2 = value x a * value x b := by
  have mixed := value_middle x a b
  rw [value_eq_halves x (middle a b)] at mixed
  simp only [product, value_xor, value_slliSi128, value_srliSi128, value_clmulepi64Si128,
    Nat.reduceMod, Nat.reduceDiv]
  rw [value_eq_halves x a, value_eq_halves x b]
  linear_combination x ^ 64 * mixed

/-- The bits that the shifts by 1, 2 and 7 drop from a lane. -/
def carry (word : BitVec 32) : BitVec 32 := word >>> 31 ^^^ word >>> 30 ^^^ word >>> 25

/-- What the shifts leave of a lane. -/
def kept (word : BitVec 32) : BitVec 32 := word ^^^ word <<< 1 ^^^ word <<< 2 ^^^ word <<< 7

theorem value_kept (word : BitVec 32) :
    value x (kept word) + x ^ 32 * value x (carry word) =
      (x ^ 7 + x ^ 2 + x + 1) * value x word := by
  have byOne := value_shiftLeft x word (k := 1) (by decide)
  have byTwo := value_shiftLeft x word (k := 2) (by decide)
  have bySeven := value_shiftLeft x word (k := 7) (by decide)
  simp only [kept, carry, value_xor]
  linear_combination byOne + byTwo + bySeven

/-- Dropped bits are the lowest ones of their new lane, so adding them drops nothing more. -/
theorem carry_xor_carry (word other : BitVec 32) : carry (word ^^^ carry other) = carry word := by
  have nothing : carry (carry other) = 0#32 := by
    apply BitVec.eq_of_getLsbD_eq
    intro j _
    have beyond : ∀ k, 50 ≤ k → other.getLsbD k = false := fun k large =>
      BitVec.getLsbD_of_ge other k (by omega)
    simp only [carry, BitVec.getLsbD_xor, BitVec.getLsbD_ushiftRight]
    simp (disch := omega) only [beyond]
    simp
  have additive : carry (word ^^^ carry other) = carry word ^^^ carry (carry other) := by
    simp only [carry, BitVec.ushiftRight_xor_distrib]
    ac_rfl
  rw [additive, nothing, BitVec.xor_zero]

/-- The dropped bits of every lane, moved to the next lane and from the last to the first. -/
theorem shuffle_carries (high : BitVec 128) :
    shuffleEpi32 (srliEpi32 high 31 ^^^ srliEpi32 high 30 ^^^ srliEpi32 high 25) 147 =
      ofLanes fun i => carry (lane high ((i + 3) % 4)) := by
  apply ext_lane
  intro i inLanes
  rw [shuffleEpi32, lane_ofLanes _ inLanes, lane_ofLanes _ inLanes]
  simp only [lane_xor, srliEpi32]
  interval_cases i <;> simp only [Nat.reducePow, Nat.reduceDiv, Nat.reduceMod, Nat.reduceAdd] <;>
    rw [lane_ofLanes _ (by decide), lane_ofLanes _ (by decide), lane_ofLanes _ (by decide)] <;> rfl

theorem mask_and (lanes : ℕ → BitVec 32) :
    setrEpi32 (-1#32) 0 0 0 &&& ofLanes lanes = ofLanes fun i => if i = 0 then lanes 0 else 0 := by
  apply ext_lane
  intro i inLanes
  rw [setrEpi32, lane_and, lane_ofLanes _ inLanes, lane_ofLanes _ inLanes, lane_ofLanes _ inLanes]
  interval_cases i <;> simp
  exact BitVec.allOnes_and

theorem mask_andnot (lanes : ℕ → BitVec 32) :
    andnotSi128 (setrEpi32 (-1#32) 0 0 0) (ofLanes lanes) =
      ofLanes fun i => if i = 0 then 0 else lanes i := by
  apply ext_lane
  intro i inLanes
  rw [setrEpi32, lane_andnotSi128 _ _ inLanes, lane_ofLanes _ inLanes, lane_ofLanes _ inLanes,
    lane_ofLanes _ inLanes]
  interval_cases i <;> simp
  all_goals exact BitVec.allOnes_and

/-- The low word, the lanes that the shifts leave, and the bits dropped from the lane below. -/
theorem reduce_eq (low high : BitVec 128) :
    let folded := high ^^^ ofLanes fun i => if i = 0 then carry (lane high 3) else 0
    reduce low high = low ^^^ ofLanes (fun i => kept (lane folded i)) ^^^
      ofLanes fun i => if i = 0 then 0 else carry (lane high ((i + 3) % 4)) := by
  intro folded
  rw [reduce, shuffle_carries, mask_and, mask_andnot]
  apply ext_lane
  intro i inLanes
  change lane (folded ^^^ (low ^^^ _ ^^^ slliEpi32 folded 1 ^^^ slliEpi32 folded 2 ^^^
    slliEpi32 folded 7)) i = _
  simp only [lane_xor, slliEpi32, lane_ofLanes _ inLanes, kept]
  ac_rfl

theorem value_reduce (root : x ^ 128 = x ^ 7 + x ^ 2 + x + 1) (low high : BitVec 128) :
    value x (reduce low high) = value x low + x ^ 128 * value x high := by
  let folded := high ^^^ ofLanes fun i => if i = 0 then carry (lane high 3) else 0
  have firstLane : lane folded 0 = lane high 0 ^^^ carry (lane high 3) := by
    simp only [folded, lane_xor]
    rw [lane_ofLanes _ (by decide), if_pos rfl]
  have laterLane : ∀ i < 4, i ≠ 0 → lane folded i = lane high i := by
    intro i inLanes notFirst
    simp only [folded, lane_xor]
    rw [lane_ofLanes _ inLanes, if_neg notFirst]
    exact BitVec.xor_zero
  have first := value_kept x (lane high 0 ^^^ carry (lane high 3))
  have second := value_kept x (lane high 1)
  have third := value_kept x (lane high 2)
  have fourth := value_kept x (lane high 3)
  rw [carry_xor_carry, value_xor] at first
  have lanes := value_ofLanes x (lane high)
  rw [ofLanes_lane] at lanes
  rw [reduce_eq, value_xor, value_xor, value_ofLanes, value_ofLanes, firstLane,
    laterLane 1 (by decide) (by decide), laterLane 2 (by decide) (by decide),
    laterLane 3 (by decide) (by decide), lanes]
  simp only [if_true, Nat.reduceAdd, Nat.reduceMod, one_ne_zero, OfNat.ofNat_ne_zero, if_false]
  rw [show (0 : BitVec 32) = 0#32 from rfl, value_zero]
  linear_combination first + x ^ 32 * second + x ^ 64 * third + x ^ 96 * fourth -
    (value x (lane high 0) + value x (carry (lane high 3)) + x ^ 32 * value x (lane high 1) +
      x ^ 64 * value x (lane high 2) + x ^ 96 * value x (lane high 3)) * root

theorem value_mul (root : x ^ 128 = x ^ 7 + x ^ 2 + x + 1) (a b : BitVec 128) :
    value x (mul a b) = value x a * value x b := by
  rw [mul_eq, value_reduce x root, value_product]

end Steps

section Field

open Gf128

theorem elem_mul (a b : BitVec 128) : elem (mul a b) = elem a * elem b :=
  value_mul _ root_pow a b

/-- The powers of an element under `mul`. -/
def pow (a : BitVec 128) : ℕ → BitVec 128
  | 0 => 1#128
  | n + 1 => mul (pow a n) a

theorem elem_pow (a : BitVec 128) (n : ℕ) : elem (pow a n) = elem a ^ n := by
  induction n with
  | zero => rw [pow, elem_one, pow_zero]
  | succ n ih => rw [pow, elem_mul, ih, pow_succ]

theorem elem_inv (a : BitVec 128) : elem (inv a) = elem a ^ (2 ^ 128 - 2) := by
  have steps : ∀ k, elem ((fun curr => mul (mul curr a) (mul curr a))^[k] 1#128) =
      elem a ^ (2 ^ (k + 1) - 2) := by
    intro k
    induction k with
    | zero => simp
    | succ k ih =>
        have exponent : 2 ^ (k + 1 + 1) - 2 = (2 ^ (k + 1) - 2 + 1) * 2 := by
          have large : 2 ≤ 2 ^ (k + 1) := Nat.le_self_pow (by omega) 2
          omega
        rw [Function.iterate_succ_apply', elem_mul, elem_mul, ih, exponent, pow_mul, ← pow_succ,
          ← pow_two]
  exact steps 127

theorem elem_inv_mul {a : BitVec 128} (notZero : a ≠ 0#128) : elem (inv a) * elem a = 1 := by
  have elemNotZero : elem a ≠ 0 := by
    intro zero
    apply notZero
    apply elem_injective
    rw [zero, elem_zero]
  apply mul_right_cancel₀ elemNotZero
  calc elem (inv a) * elem a * elem a = elem a ^ (2 ^ 128 - 2 + 2) := by
        rw [elem_inv, pow_add, pow_two, mul_assoc]
    _ = elem a ^ 2 ^ 128 := by norm_num
    _ = 1 * elem a := by rw [pow_card, one_mul]

/-- `inv` gives the inverse of every element but zero, and zero for zero. -/
theorem inv_inverts (a : BitVec 128) :
    (a ≠ 0#128 → mul (inv a) a = 1#128) ∧ inv 0#128 = 0#128 := by
  constructor
  · intro notZero
    apply elem_injective
    rw [elem_mul, elem_inv_mul notZero, elem_one]
  · apply elem_injective
    rw [elem_inv, elem_zero, zero_pow (by decide)]

theorem inv_inverts_seven : mul (inv 7#128) 7#128 = 1#128 :=
  (inv_inverts 7#128).1 (by decide)

end Field

end PracticalCrypto.F2128Mta
