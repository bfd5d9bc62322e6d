import PracticalCrypto.Surf.BitConversion
import PracticalCrypto.Surf.Circuit.KeySchedule

/-!
# The bits of a bignum on wires

`convert_bssl_array_to_emp_span` is to put a serialised bignum on the wires of an addition circuit,
and `rearrange_sum_bits` takes a sum from there to the bytes that HKDF reads
(`surf-impl/src/2pc/CircuitSynthesis.cpp`). The addition circuits work on little-endian integers.

The first function fills the span from its end, the lowest bit of the first byte at the very end.
This puts the bytes in the right order, and in every byte the highest bit first.
-/

namespace PracticalCrypto.Surf

open Wires

section Model

/-- The inner loop of `convert_bssl_array_to_emp_span`, for a number of rounds. The span is filled
from its end. -/
def prependBits : ℕ → UInt8 → List Bool → List Bool
  | 0, _, out => out
  | rounds + 1, c, out => prependBits rounds (c >>> 1) ((c &&& 1 ≠ 0) :: out)

/-- `convert_bssl_array_to_emp_span`. A public label is the bit that it stands for. -/
def convertBsslArrayToEmpSpan (a : List UInt8) : List Bool :=
  a.foldl (fun out c => prependBits 8 c out) []

end Model

section Order

variable {a : List UInt8}

theorem prependBits_eq (rounds : ℕ) (c : UInt8) (out : List Bool) :
    prependBits rounds c out = (unpackBits rounds c).reverse ++ out := by
  induction rounds generalizing c out with
  | zero => rfl
  | succ rounds ih => simp [prependBits, unpackBits, ih]

theorem foldl_prependBits (a : List UInt8) (out : List Bool) :
    a.foldl (fun out c => prependBits 8 c out) out = (convertUint8ToBool a).reverse ++ out := by
  induction a generalizing out with
  | nil => rfl
  | cons c a ih =>
      rw [List.foldl_cons, ih, prependBits_eq, convertUint8ToBool, convertUint8ToBool,
        List.flatMap_cons, List.reverse_append, List.append_assoc]

theorem convertBsslArrayToEmpSpan_eq (a : List UInt8) :
    convertBsslArrayToEmpSpan a = (ofBytes a).reverse := by
  rw [convertBsslArrayToEmpSpan, foldl_prependBits, convertUint8ToBool_eq, List.append_nil]

theorem length_convertBsslArrayToEmpSpan (a : List UInt8) :
    (convertBsslArrayToEmpSpan a).length = 8 * a.length := by
  rw [convertBsslArrayToEmpSpan_eq, List.length_reverse, length_ofBytes]

/-- A bit of the integer in the byte that it belongs to, counted from the last one. -/
theorem testBit_toNat_eq {i j : ℕ} (inArray : i < a.length) (inByte : j < 8) :
    (BigEndian.toNat a).testBit (8 * i + j) = (a.reverse.getD i 0).toNat.testBit j := by
  have quotient : (8 * i + j) / 8 = i := by omega
  have remainder : (8 * i + j) % 8 = j := by omega
  rw [testBit_bigEndian a (by omega), quotient, remainder]

theorem reverse_ofBytes (a : List UInt8) :
    (ofBytes a).reverse = ofBytes (a.reverse.map bitReverse) := by
  have restored : (a.map bitReverse).map bitReverse = a := by
    simp [Function.comp_def, bitReverse_bitReverse]
  have reversed := reverse_eachByte_reverse (a.map bitReverse)
  rwa [eachByte_reverse_ofBytes, restored, ← List.map_reverse] at reversed

/-- The span has the bits of the integer, in every byte in the opposite order. -/
theorem getElem?_convertBsslArrayToEmpSpan {k : ℕ} (inside : k < 8 * a.length) :
    (convertBsslArrayToEmpSpan a)[k]? =
      some ((BigEndian.toNat a).testBit (8 * (k / 8) + (7 - k % 8))) := by
  have inSpan : k < (convertBsslArrayToEmpSpan a).length := by
    rwa [length_convertBsslArrayToEmpSpan]
  have inArray : k / 8 < a.length := by omega
  have byte : (a.reverse.map bitReverse).getD (k / 8) 0 =
      bitReverse (a.reverse.getD (k / 8) 0) := by
    simp [inArray]
  have entry : (convertBsslArrayToEmpSpan a).getD k false =
      (a.reverse.getD (k / 8) 0).toNat.testBit (7 - k % 8) := by
    rw [convertBsslArrayToEmpSpan_eq, reverse_ofBytes, getD_ofBytes, byte,
      testBit_bitReverse _ (Nat.mod_lt _ (by decide))]
  rw [testBit_toNat_eq inArray (by omega), ← entry, List.getElem?_eq_getElem inSpan,
    List.getD_eq_getElem _ _ inSpan]

/-- The bits of the integer are at their places exactly if the bits of every byte read the same in
both directions. From their places, the rearrangement always gets the bytes of the array. -/
theorem bignumBits_ordered_iff (a : List UInt8) :
    ((∀ k < 8 * a.length,
        (convertBsslArrayToEmpSpan a)[k]? = some ((BigEndian.toNat a).testBit k)) ↔
      ∀ byte ∈ a, ∀ j < 8, byte.toNat.testBit j = byte.toNat.testBit (7 - j)) ∧
    rearrangeSumBits (ofNat (8 * a.length) (BigEndian.toNat a)) = ofBytes a := by
  constructor
  · constructor
    · intro ordered byte inArray j inByte
      rcases List.getElem_of_mem (List.mem_reverse.mpr inArray) with ⟨i, isIndex, rfl⟩
      have inside : i < a.length := by simpa using isIndex
      have quotient : (8 * i + j) / 8 = i := by omega
      have remainder : (8 * i + j) % 8 = j := by omega
      have here := ordered (8 * i + j) (by omega)
      rw [getElem?_convertBsslArrayToEmpSpan (by omega), quotient, remainder, Option.some_inj,
        testBit_toNat_eq inside (by omega), testBit_toNat_eq inside inByte] at here
      rw [List.getD_eq_getElem _ _ isIndex] at here
      exact here.symm
    · intro symmetric k inside
      have inArray : k / 8 < a.reverse.length := by
        rw [List.length_reverse]
        omega
      have inByte : k % 8 < 8 := Nat.mod_lt _ (by decide)
      have member := List.mem_reverse.mp (List.getElem_mem inArray)
      have same := symmetric _ member (k % 8) inByte
      rw [← List.getD_eq_getElem _ 0 inArray] at same
      rw [List.length_reverse] at inArray
      rw [← testBit_toNat_eq inArray inByte, ← testBit_toNat_eq inArray (by omega),
        Nat.div_add_mod] at same
      rw [getElem?_convertBsslArrayToEmpSpan inside, same]
  · rw [rearrangeSumBits_ofNat, BigEndian.ofNat_toNat]

/-- The lowest bit of the integer one is the last of its byte in the span. -/
theorem convertBsslArrayToEmpSpan_one :
    (convertBsslArrayToEmpSpan [1])[0]? = some false ∧ (BigEndian.toNat [1]).testBit 0 = true := by
  decide

end Order

end PracticalCrypto.Surf
