import Mathlib.Algebra.BigOperators.NatAntidiagonal
import PracticalCrypto.Library.BinaryWord
import PracticalCrypto.Library.Wires

/-!
# Words on the wires of a circuit

A word is carried by one wire per bit, the lowest bit first. Copies of wires are
slices, shifts and concatenations of the word, and a column of AND gates summed by
XOR gates is a coefficient of the carry-less product.
-/

namespace PracticalCrypto.Wires

open BinaryWord

section Words

variable {m n : ℕ}

def ofWord (word : BitVec n) : List Bool := (List.range n).map word.getLsbD

@[simp]
theorem length_ofWord (word : BitVec n) : (ofWord word).length = n := by
  simp [ofWord]

theorem getD_ofWord (word : BitVec n) (i : ℕ) : (ofWord word).getD i false = word.getLsbD i := by
  rcases Nat.lt_or_ge i n with inside | beyond
  · simp [ofWord, inside]
  · rw [List.getD_eq_default _ _ (by simpa using beyond), BitVec.getLsbD_of_ge word i beyond]

theorem eq_ofWord {wires : List Bool} {word : BitVec n} (sized : wires.length = n)
    (same : ∀ i < n, wires.getD i false = word.getLsbD i) : wires = ofWord word := by
  apply List.ext_getElem
  · simp [sized]
  · intro i inWires inWord
    rw [← List.getD_eq_getElem _ false inWires, ← List.getD_eq_getElem _ false inWord, getD_ofWord]
    exact same i (sized ▸ inWires)

theorem exists_ofWord {wires : List Bool} (sized : wires.length = n) :
    ∃ word : BitVec n, wires = ofWord word := by
  refine ⟨BitVec.ofNat n (toNat wires), eq_ofWord sized ?_⟩
  intro i inWord
  rw [BitVec.getLsbD_ofNat, testBit_toNat, decide_eq_true inWord, Bool.true_and]

theorem xorWires_ofWord (a b : BitVec n) : xorWires (ofWord a) (ofWord b) = ofWord (a ^^^ b) := by
  simp [xorWires, ofWord]

theorem zipWith_and_ofWord (a b : BitVec n) :
    List.zipWith (· && ·) (ofWord a) (ofWord b) = ofWord (a &&& b) := by
  simp [ofWord]

theorem zipWith_andnot_ofWord (a b : BitVec n) :
    List.zipWith (fun x y => !x && y) (ofWord a) (ofWord b) = ofWord (~~~a &&& b) := by
  simp only [ofWord, List.zipWith_map, List.zipWith_self]
  apply List.map_congr_left
  intro i inWord
  simp [List.mem_range.mp inWord]

theorem slice_ofWord (word : BitVec n) {offset size : ℕ} (inside : offset + size ≤ n) :
    slice (ofWord word) offset size = ofWord (word.extractLsb' offset size) := by
  apply eq_ofWord
  · rw [length_slice, length_ofWord]
    omega
  · intro i inSlice
    rw [slice, List.getD_eq_getElem?_getD, List.getElem?_take_of_lt inSlice, List.getElem?_drop,
      ← List.getD_eq_getElem?_getD, getD_ofWord, BitVec.getLsbD_extractLsb',
      decide_eq_true inSlice, Bool.true_and]

theorem ofWord_append (high : BitVec m) (low : BitVec n) :
    ofWord low ++ ofWord high = ofWord (high ++ low) := by
  apply eq_ofWord
  · simp [Nat.add_comm]
  · intro i _
    rw [BitVec.getLsbD_append]
    split_ifs with inLow
    · rw [List.getD_append _ _ _ _ (by simpa using inLow), getD_ofWord]
    · rw [List.getD_append_right _ _ _ _ (by simpa using inLow), getD_ofWord, length_ofWord]

theorem ofWord_shiftLeft (word : BitVec n) {k : ℕ} (inside : k ≤ n) :
    List.replicate k false ++ slice (ofWord word) 0 (n - k) = ofWord (word <<< k) := by
  rw [slice_ofWord word (by omega)]
  apply eq_ofWord
  · simp [inside]
  · intro i inWord
    rw [BitVec.getLsbD_shiftLeft, decide_eq_true inWord, Bool.true_and]
    by_cases dropped : i < k
    · rw [List.getD_append _ _ _ _ (by simpa using dropped)]
      simp [dropped]
    · rw [List.getD_append_right _ _ _ _ (by simpa using dropped), getD_ofWord,
        List.length_replicate, BitVec.getLsbD_extractLsb']
      have moved : i - k < n - k := by omega
      simp [dropped, moved]

theorem ofWord_shiftRight (word : BitVec n) {k : ℕ} (inside : k ≤ n) :
    slice (ofWord word) k (n - k) ++ List.replicate k false = ofWord (word >>> k) := by
  rw [slice_ofWord word (by omega)]
  apply eq_ofWord
  · simp [inside]
  · intro i inWord
    rw [BitVec.getLsbD_ushiftRight]
    by_cases moved : i < n - k
    · rw [List.getD_append _ _ _ _ (by simpa using moved), getD_ofWord,
        BitVec.getLsbD_extractLsb', decide_eq_true moved, Bool.true_and]
    · rw [List.getD_append_right _ _ _ _ (by simpa using moved),
        BitVec.getLsbD_of_ge word _ (by omega)]
      simp

end Words

section Columns

open Polynomial

variable {n : ℕ}

/-- A bit as a coefficient. -/
def bit (b : Bool) : ZMod 2 := if b then 1 else 0

theorem bit_injective : Function.Injective bit := by
  decide

theorem bit_xor (a b : Bool) : bit (xor a b) = bit a + bit b := by
  revert a b
  decide

theorem bit_and (a b : Bool) : bit (a && b) = bit a * bit b := by
  revert a b
  decide

theorem bit_foldl_xor (start : Bool) (terms : ℕ → Bool) (count : ℕ) :
    bit ((List.range count).foldl (fun tmp j => xor tmp (terms j)) start) =
      bit start + ∑ j ∈ Finset.range count, bit (terms j) := by
  induction count with
  | zero => simp
  | succ count ih =>
      rw [List.range_succ, List.foldl_append, List.foldl_cons, List.foldl_nil, bit_xor, ih,
        Finset.sum_range_succ, add_assoc]

theorem bit_clmul (a b : BitVec n) (i : ℕ) :
    bit ((clmul a b).getLsbD i) =
      ∑ j ∈ Finset.range (i + 1), bit (a.getLsbD j && b.getLsbD (i - j)) := by
  have coefficients := congrArg (fun p => p.coeff i) (value_clmul (X : (ZMod 2)[X]) a b)
  simp only [coeff_mul, Finset.Nat.sum_antidiagonal_eq_sum_range_succ_mk, coeff_value]
    at coefficients
  simp only [bit_and]
  exact coefficients

theorem bit_clmul_of_ge (a b : BitVec n) {i : ℕ} (high : n ≤ i) (inProduct : i < n + n) :
    bit ((clmul a b).getLsbD i) = ∑ k ∈ Finset.range (n + n - 1 - i),
      bit (a.getLsbD (i - (n - 1) + k) && b.getLsbD (i - (i - (n - 1) + k))) := by
  have split : i + 1 = i - (n - 1) + (n + n - 1 - i) + (i - (n - 1)) := by omega
  have beforeB : ∀ j < i - (n - 1), bit (a.getLsbD j && b.getLsbD (i - j)) = 0 := by
    intro j before
    rw [BitVec.getLsbD_of_ge b (i - j) (by omega), Bool.and_false]
    rfl
  have afterA : ∀ j, bit (a.getLsbD (i - (n - 1) + (n + n - 1 - i) + j) &&
      b.getLsbD (i - (i - (n - 1) + (n + n - 1 - i) + j))) = 0 := by
    intro j
    rw [BitVec.getLsbD_of_ge a _ (by omega), Bool.false_and]
    rfl
  rw [bit_clmul, split, Finset.sum_range_add, Finset.sum_range_add,
    Finset.sum_eq_zero (s := Finset.range (i - (n - 1)))
      fun j inRange => beforeB j (Finset.mem_range.mp inRange),
    Finset.sum_eq_zero fun j _ => afterA j, zero_add, add_zero]

end Columns

end PracticalCrypto.Wires
