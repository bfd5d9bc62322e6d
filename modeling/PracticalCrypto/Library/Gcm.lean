import Mathlib.Data.List.GetD
import Mathlib.Data.List.Induction
import PracticalCrypto.Library.Gf128
import PracticalCrypto.Library.Wires

/-!
# The Galois/Counter Mode of NIST SP 800-38D

The multiplication of blocks, the hash of a sequence of blocks and the authenticated
encryption, as the standard states them. A block is a word whose most significant bit
is the leftmost bit of the string. The leftmost bit is the coefficient of `x ^ 0`,
so the element of a block is that of the reversed word, and GHASH is a polynomial
in the hash key.
-/

namespace PracticalCrypto.Gcm

open BinaryWord Gf128

section Standard

/-- The block `R`. -/
def r : BitVec 128 := 0xe1000000000000000000000000000000#128

/-- One step of the factor `V` in Algorithm 1. -/
def halve (v : BitVec 128) : BitVec 128 := if v.getLsbD 0 then v >>> 1 ^^^ r else v >>> 1

/-- Algorithm 1, the product of two blocks. -/
def blockMul (x y : BitVec 128) : BitVec 128 :=
  ((List.range 128).foldl
    (fun (z, v) i => (if x.getMsbD i then z ^^^ v else z, halve v)) (0#128, y)).1

/-- Algorithm 2, `GHASH`. -/
def ghash (h : BitVec 128) (blocks : List (BitVec 128)) : BitVec 128 :=
  blocks.foldl (fun y x => blockMul (y ^^^ x) h) 0#128

/-- The block with the given bytes. -/
def ofOctets (octets : Fin 16 → UInt8) : BitVec 128 :=
  BitVec.ofNat 128 (BigEndian.toNat (List.ofFn octets))

/-- The blocks of a byte string that is padded with zeros to full blocks. -/
def padBlocks (bytes : List UInt8) : List (BitVec 128) :=
  (List.range ((bytes.length + 15) / 16)).map fun i =>
    ofOctets fun j => bytes.getD (16 * i + j.val) 0

/-- The blocks that are hashed for the additional data and the ciphertext. -/
def ghashInput (aad ct : List UInt8) : List (BitVec 128) :=
  padBlocks aad ++ padBlocks ct ++
    [BitVec.ofNat 64 (8 * aad.length) ++ BitVec.ofNat 64 (8 * ct.length)]

/-- The bytes of a block. -/
def toOctets (block : BitVec 128) : Fin 16 → UInt8 := fun i =>
  UInt8.ofBitVec (block.extractLsb' (8 * (15 - i.val)) 8)

/-- The incrementing function of the rightmost 32 bits. -/
def inc32 (block : BitVec 128) : BitVec 128 := block.extractLsb' 32 96 ++ (block.extractLsb' 0 32 + 1)

/-- Algorithm 3, `GCTR`, on byte strings: the counter block of a byte is that of its block. -/
def gctr (ciph : BitVec 128 → BitVec 128) (icb : BitVec 128) (x : List UInt8) : List UInt8 :=
  x.mapIdx fun i byte =>
    byte ^^^ toOctets (ciph (inc32^[i / 16] icb)) ⟨i % 16, Nat.mod_lt i (by decide)⟩

/-- Algorithm 4, `GCM-AE` with a 96-bit IV: the ciphertext and the full tag. -/
def encrypt (ciph : BitVec 128 → BitVec 128) (iv : BitVec 96) (p a : List UInt8) :
    List UInt8 × BitVec 128 :=
  let h := ciph 0#128
  let j0 := iv ++ 1#32
  let c := gctr ciph (inc32 j0) p
  (c, ghash h (ghashInput a c) ^^^ ciph j0)

-- the second test case of the GCM proposal, with its three values of the cipher
example :
    let ciph := fun block : BitVec 128 =>
      if block = 0#128 then 0x66e94bd4ef8a2c3b884cfa59ca342b2e#128
      else if block = 1#128 then 0x58e2fccefa7e3061367f1d57a4e7455a#128
      else 0x0388dace60b6a392f328c2b971b2fe78#128
    encrypt ciph 0#96 (List.replicate 16 0) [] =
      (List.ofFn (toOctets 0x0388dace60b6a392f328c2b971b2fe78#128),
        0xab6e47d42cec13bdf53a67b21257bddf#128) := by
  decide +kernel

end Standard

theorem getMsbD_ofOctets (octets : Fin 16 → UInt8) {i : ℕ} (inBlock : i < 128) :
    (ofOctets octets).getMsbD i =
      (octets ⟨i / 8, by omega⟩).toNat.testBit (7 - i % 8) := by
  have position : 127 - i < 8 * (List.ofFn octets).length := by
    rw [List.length_ofFn]
    omega
  have inReverse : (127 - i) / 8 < 16 := by omega
  have mirroredBit : (127 - i) % 8 = 7 - i % 8 := by omega
  have mirroredByte : Fin.rev ⟨(127 - i) / 8, inReverse⟩ = ⟨i / 8, by omega⟩ := by
    apply Fin.ext
    simp only [Fin.val_rev]
    omega
  rw [BitVec.getMsbD_eq_getLsbD, ofOctets, BitVec.getLsbD_ofNat,
    Wires.testBit_bigEndian _ position, Wires.getD_reverse_ofFn _ _ inReverse, mirroredByte,
    mirroredBit, decide_eq_true inBlock, decide_eq_true (show 128 - 1 - i < 128 by omega)]
  rfl

theorem ofOctets_xor (a b : Fin 16 → UInt8) :
    ofOctets (fun i => a i ^^^ b i) = ofOctets a ^^^ ofOctets b := by
  apply BitVec.eq_of_getMsbD_eq
  intro i inBlock
  rw [BitVec.getMsbD_xor, getMsbD_ofOctets _ inBlock, getMsbD_ofOctets _ inBlock,
    getMsbD_ofOctets _ inBlock, UInt8.toNat_xor, Nat.testBit_xor]

theorem toOctets_ofOctets (octets : Fin 16 → UInt8) : toOctets (ofOctets octets) = octets := by
  funext i
  apply UInt8.toBitVec_inj.mp
  apply BitVec.eq_of_getLsbD_eq
  intro j inByte
  have inBlock : 8 * i.val + (7 - j) < 128 := by omega
  have position : 127 - (8 * i.val + (7 - j)) = 8 * (15 - i.val) + j := by omega
  have byte : (8 * i.val + (7 - j)) / 8 = i.val := by omega
  have bitInByte : 7 - (8 * i.val + (7 - j)) % 8 = j := by omega
  have bit := getMsbD_ofOctets octets inBlock
  simp only [byte, bitInByte, Fin.eta, BitVec.getMsbD_eq_getLsbD, inBlock, decide_true,
    Bool.true_and, Nat.reduceSub, position] at bit
  simp only [toOctets, BitVec.getLsbD_extractLsb', inByte, decide_true, Bool.true_and, bit]
  rfl

@[simp]
theorem length_padBlocks (bytes : List UInt8) :
    (padBlocks bytes).length = (bytes.length + 15) / 16 := by
  simp [padBlocks]

theorem length_ghashInput (aad ct : List UInt8) :
    (ghashInput aad ct).length = (aad.length + 15) / 16 + (ct.length + 15) / 16 + 1 := by
  simp [ghashInput, Nat.add_assoc]

section Counter

theorem iterate_inc32 (iv : BitVec 96) (counter : BitVec 32) (n : ℕ) :
    inc32^[n] (iv ++ counter) = iv ++ (counter + BitVec.ofNat 32 n) := by
  induction n with
  | zero => simp
  | succ n ih =>
      rw [Function.iterate_succ_apply', ih, inc32, BitVec.extractLsb'_append_eq_left,
        BitVec.extractLsb'_append_eq_right, BitVec.ofNat_add, BitVec.add_assoc]
      rfl

@[simp]
theorem length_gctr (ciph : BitVec 128 → BitVec 128) (icb : BitVec 128) (x : List UInt8) :
    (gctr ciph icb x).length = x.length := by
  simp [gctr]

/-- Counter mode is its own inverse. -/
theorem gctr_gctr (ciph : BitVec 128 → BitVec 128) (icb : BitVec 128) (x : List UInt8) :
    gctr ciph icb (gctr ciph icb x) = x := by
  apply List.ext_getElem
  · rw [length_gctr, length_gctr]
  · intro i _ _
    simp only [gctr, List.getElem_mapIdx]
    rw [UInt8.xor_assoc, UInt8.xor_self, UInt8.xor_zero]

end Counter

section Polynomial

/-- The element that a block stands for. -/
noncomputable def reflect (block : BitVec 128) : Quotient := elem block.reverse

theorem reflect_injective : Function.Injective reflect := by
  intro a b same
  have reversed := congrArg BitVec.reverse (elem_injective same)
  rwa [BitVec.reverse_reverse_eq, BitVec.reverse_reverse_eq] at reversed

theorem reverse_xor (a b : BitVec 128) : (a ^^^ b).reverse = a.reverse ^^^ b.reverse := by
  apply BitVec.eq_of_getLsbD_eq
  intro i _
  simp [BitVec.getLsbD_reverse]

theorem reflect_xor (a b : BitVec 128) : reflect (a ^^^ b) = reflect a + reflect b := by
  rw [reflect, reverse_xor, elem_xor]
  rfl

theorem reflect_zero : reflect 0#128 = 0 := by
  have palindrome : (0#128).reverse = 0#128 := by decide +kernel
  rw [reflect, palindrome, elem_zero]

/-- The step of the standard is the multiplication by `x` on reversed words. -/
theorem reverse_halve (v : BitVec 128) : (halve v).reverse = timesX tail v.reverse := by
  have top : v.reverse.msb = v.getLsbD 0 := by
    rw [BitVec.msb_eq_getLsbD_last, BitVec.getLsbD_reverse, BitVec.getMsbD_eq_getLsbD]
    simp
  have shifted : (v >>> 1).reverse = v.reverse <<< 1 := by
    apply BitVec.eq_of_getLsbD_eq
    intro i inWord
    rw [BitVec.getLsbD_reverse, BitVec.getMsbD_ushiftRight, BitVec.getLsbD_shiftLeft,
      BitVec.getLsbD_reverse, Bool.and_assoc]
  have constant : r.reverse = tail := by decide +kernel
  rw [halve, timesX, top]
  split_ifs
  · rw [reverse_xor, shifted, constant]
  · exact shifted

theorem reflect_halve (v : BitVec 128) :
    reflect (halve v) = AdjoinRoot.root modulus * reflect v := by
  rw [reflect, reverse_halve]
  exact value_timesX (by decide) (root_pow_eq_value modulus_eq) v.reverse

theorem reflect_blockMul (a b : BitVec 128) : reflect (blockMul a b) = reflect a * reflect b := by
  have sums := (foldl_double reflect reflect_xor reflect_halve a.getMsbD 0#128 b 128).1
  rw [reflect_zero, zero_add] at sums
  have bits : reflect a =
      ∑ i ∈ Finset.range 128, if a.getMsbD i then AdjoinRoot.root modulus ^ i else 0 := by
    simp only [reflect, elem, value, BitVec.getLsbD_reverse]
  rw [bits]
  exact sums

theorem reflect_ghash (h : BitVec 128) (blocks : List (BitVec 128)) :
    reflect (ghash h blocks) = ∑ j ∈ Finset.range blocks.length,
      reflect (blocks.getD j 0) * reflect h ^ (blocks.length - j) := by
  induction blocks using List.reverseRecOn with
  | nil => simp [ghash, reflect_zero]
  | append_singleton blocks block ih =>
      have step : ghash h (blocks ++ [block]) = blockMul (ghash h blocks ^^^ block) h := by
        simp [ghash]
      have earlier : ∀ j ∈ Finset.range blocks.length,
          reflect ((blocks ++ [block]).getD j 0) * reflect h ^ (blocks.length + 1 - j) =
            reflect (blocks.getD j 0) * reflect h ^ (blocks.length - j) * reflect h := by
        intro j inBlocks
        have inside : j < blocks.length := Finset.mem_range.mp inBlocks
        have exponent : blocks.length + 1 - j = blocks.length - j + 1 := by omega
        rw [exponent, pow_succ, List.getD_append _ _ _ _ inside, mul_assoc]
      have last : (blocks ++ [block]).getD blocks.length 0 = block := by simp
      rw [List.length_append, List.length_singleton, Finset.sum_range_succ,
        Finset.sum_congr rfl earlier, ← Finset.sum_mul, last, Nat.add_sub_cancel_left, pow_one,
        step, reflect_blockMul, reflect_xor, ih, add_mul]

end Polynomial

end PracticalCrypto.Gcm
