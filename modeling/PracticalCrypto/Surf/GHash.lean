import PracticalCrypto.Library.Gcm
import PracticalCrypto.Mta.F2128
import PracticalCrypto.Surf.Server.Io

/-!
# GHASH from shares

This file embeds `surf-impl/src/ssl/GHash.hpp`: a party evaluates the polynomial of
GHASH at its shares of the powers of the hash key. The source counts bits from the
lowest one of byte zero and GHASH from the highest one, so the bits of every byte
are reversed on the way in and out.
-/

namespace PracticalCrypto.Surf.GHash

open BlockMap Wires F2128Mta Gf128

section Model

/-- `detail::bitrev` on one byte. -/
def bitrevByte (byte : UInt8) : UInt8 :=
  (List.range 8).foldl
    (fun r j => r ||| ((byte >>> UInt8.ofNat j) &&& 1) <<< UInt8.ofNat (7 - j)) 0

/-- `detail::bitrev`. -/
def bitrev (block : Block) : Block := fun i => bitrevByte (block i)

/-- `block_at`, with `j` counted from one. -/
def blockAt (aad ciphertext : Bytes) (j : ℕ) : Block :=
  let aadBlocks := blocksOf aad.length
  let ctBlocks := blocksOf ciphertext.length
  if j ≤ aadBlocks then fun i => aad.getD ((j - 1) * 16 + i.val) 0
  else if j ≤ aadBlocks + ctBlocks then
    fun i => ciphertext.getD ((j - aadBlocks - 1) * 16 + i.val) 0
  else
    let abits := UInt64.ofNat aad.length * 8
    let cbits := UInt64.ofNat ciphertext.length * 8
    fun i =>
      if i.val < 8 then (abits >>> UInt64.ofNat (56 - 8 * i.val)).toUInt8
      else (cbits >>> UInt64.ofNat (56 - 8 * (i.val - 8))).toUInt8

/-- Entry `i` of a table of powers. -/
def power (powers : Bytes) (i : ℕ) : BitVec 128 := arrToBlock (field powers (i * 16) 16)

/-- The loop of `share` and the conversion of its result. -/
def polynomial (powers aad ciphertext : Bytes) : Block :=
  let n := blocksOf aad.length + blocksOf ciphertext.length + 1
  let acc := (List.range n).foldl (fun acc k =>
    let j := k + 1
    acc ^^^ mul (arrToBlock (bitrev (blockAt aad ciphertext j))) (power powers (n - j))) 0#128
  bitrev (blockToArr acc)

/-- `GHash::share`. -/
def share (powers aad ciphertext : Bytes) : Option Block :=
  ghashShare polynomial powers aad ciphertext

/-- The table that holds the given entries. -/
def table (entries : Fin 1088 → BitVec 128) : Bytes :=
  flattenArrays fun i => blockToArr (entries i)

end Model

section Order

theorem bitrevByte_eq (byte : UInt8) : bitrevByte byte = bitReverse byte := by
  apply forall_byte (P := fun byte => bitrevByte byte = bitReverse byte)
  decide +kernel

theorem bitrev_bitrev (block : Block) : bitrev (bitrev block) = block := by
  funext i
  simp [bitrev, bitrevByte_eq, bitReverse_bitReverse]

/-- The conversion of the source and the order of the standard. -/
theorem arrToBlock_bitrev (block : Block) :
    arrToBlock (bitrev block) = (Gcm.ofOctets block).reverse := by
  apply BitVec.eq_of_getLsbD_eq
  intro i inBlock
  rw [getLsbD_arrToBlock _ (by omega), BitVec.getLsbD_reverse, Gcm.getMsbD_ofOctets _ inBlock]
  simp only [bitrev, bitrevByte_eq]
  exact testBit_bitReverse _ (Nat.mod_lt i (by decide))

theorem elem_bitrev (block : Block) :
    elem (arrToBlock (bitrev block)) = Gcm.reflect (Gcm.ofOctets block) := by
  rw [arrToBlock_bitrev]
  rfl

theorem reflect_bitrev (block : BitVec 128) :
    Gcm.reflect (Gcm.ofOctets (bitrev (blockToArr block))) = elem block := by
  rw [← elem_bitrev, bitrev_bitrev, arrToBlock_blockToArr]

end Order

section Blocks

variable (aad ciphertext : Bytes)

/-- A bit of a length, in the byte that the source shifts out for it. -/
theorem testBit_lengthByte (length : ℕ) {k j : ℕ} (inWord : k < 8) (inByte : j < 8) :
    ((UInt64.ofNat length * 8) >>> UInt64.ofNat (56 - 8 * k)).toUInt8.toNat.testBit (7 - j) =
      (BitVec.ofNat 64 (8 * length)).getMsbD (8 * k + j) := by
  have shift : (UInt64.ofNat (56 - 8 * k)).toNat = 56 - 8 * k := by
    rw [UInt64.toNat_ofNat', Nat.mod_eq_of_lt (by omega)]
  have bits : (UInt64.ofNat length * 8).toNat = 8 * length % 2 ^ 64 := by
    rw [UInt64.toNat_mul, UInt64.toNat_ofNat', Nat.mod_mul_mod, Nat.mul_comm]
    rfl
  have position : (56 - 8 * k) % 64 + (7 - j) = 63 - (8 * k + j) := by omega
  rw [UInt64.toNat_toUInt8, Nat.testBit_mod_two_pow, UInt64.toNat_shiftRight, shift, bits,
    Nat.testBit_shiftRight, position, BitVec.getMsbD_eq_getLsbD, BitVec.getLsbD_ofNat,
    Nat.testBit_mod_two_pow]
  have bit : 7 - j < 8 := by omega
  have inLength : 8 * k + j < 64 := by omega
  have mirrored : 63 - (8 * k + j) < 64 := by omega
  simp [bit, inLength, mirrored]

theorem ofOctets_lengths (a c : ℕ) :
    Gcm.ofOctets (fun i =>
      if i.val < 8 then ((UInt64.ofNat a * 8) >>> UInt64.ofNat (56 - 8 * i.val)).toUInt8
      else ((UInt64.ofNat c * 8) >>> UInt64.ofNat (56 - 8 * (i.val - 8))).toUInt8) =
        BitVec.ofNat 64 (8 * a) ++ BitVec.ofNat 64 (8 * c) := by
  apply BitVec.eq_of_getMsbD_eq
  intro i inBlock
  rw [Gcm.getMsbD_ofOctets _ inBlock, BitVec.getMsbD_append]
  by_cases inFirst : i < 64
  · have inWord : i / 8 < 8 := by omega
    rw [if_pos inWord, testBit_lengthByte a inWord (Nat.mod_lt i (by decide)), Nat.div_add_mod]
    simp [inFirst]
  · have inSecond : ¬i / 8 < 8 := by omega
    have inWord : i / 8 - 8 < 8 := by omega
    have position : 8 * (i / 8 - 8) + i % 8 = i - 64 := by omega
    rw [if_neg inSecond, testBit_lengthByte c inWord (Nat.mod_lt i (by decide)), position]
    simp [inFirst]

theorem getD_padBlocks (bytes : Bytes) {m : ℕ} (inBytes : m < blocksOf bytes.length) :
    (Gcm.padBlocks bytes).getD m 0 = Gcm.ofOctets fun i => bytes.getD (m * 16 + i.val) 0 := by
  have inList : m < (Gcm.padBlocks bytes).length := by
    rw [Gcm.length_padBlocks]
    exact inBytes
  rw [List.getD_eq_getElem _ _ inList]
  simp [Gcm.padBlocks, Nat.mul_comm]

theorem ofOctets_blockAt {k : ℕ} (inInput : k < (Gcm.ghashInput aad ciphertext).length) :
    Gcm.ofOctets (blockAt aad ciphertext (k + 1)) =
      (Gcm.ghashInput aad ciphertext).getD k 0 := by
  have aadLength : (Gcm.padBlocks aad).length = blocksOf aad.length := Gcm.length_padBlocks aad
  have ctLength : (Gcm.padBlocks ciphertext).length = blocksOf ciphertext.length :=
    Gcm.length_padBlocks ciphertext
  have length : (Gcm.ghashInput aad ciphertext).length =
      blocksOf aad.length + blocksOf ciphertext.length + 1 := Gcm.length_ghashInput aad ciphertext
  simp only [blockAt, Gcm.ghashInput, Nat.add_sub_cancel]
  split_ifs with inAad inCt
  · rw [List.getD_append _ _ _ _ (by simp [aadLength, ctLength]; omega),
      List.getD_append _ _ _ _ (by simp [aadLength]; omega), getD_padBlocks aad (by omega)]
  · have index : k + 1 - blocksOf aad.length - 1 = k - blocksOf aad.length := by omega
    rw [List.getD_append _ _ _ _ (by simp [aadLength, ctLength]; omega),
      List.getD_append_right _ _ _ _ (by simp [aadLength]; omega), aadLength,
      getD_padBlocks ciphertext (by omega), index]
  · have last : k = (Gcm.padBlocks aad ++ Gcm.padBlocks ciphertext).length := by
      simp only [List.length_append, aadLength, ctLength]
      omega
    rw [List.getD_append_right _ _ _ _ last.ge, last, Nat.sub_self, List.getD_cons_zero]
    exact ofOctets_lengths aad.length ciphertext.length

end Blocks

section Shares

variable {a b aad ciphertext : Bytes}

theorem share_eq_none_iff (powers aad ciphertext : Bytes) :
    share powers aad ciphertext = none ↔
      1088 < blocksOf aad.length + blocksOf ciphertext.length + 1 := by
  simp [share, ghashShare]

theorem share_eq_some (powers : Bytes)
    (fits : blocksOf aad.length + blocksOf ciphertext.length + 1 ≤ 1088) :
    share powers aad ciphertext = some (polynomial powers aad ciphertext) := by
  rw [share, ghashShare, if_neg (by omega)]

theorem reflect_polynomial (powers aad ciphertext : Bytes) :
    let input := Gcm.ghashInput aad ciphertext
    Gcm.reflect (Gcm.ofOctets (polynomial powers aad ciphertext)) =
      ∑ k ∈ Finset.range input.length,
        Gcm.reflect (input.getD k 0) * elem (power powers (input.length - (k + 1))) := by
  intro input
  have length : input.length = blocksOf aad.length + blocksOf ciphertext.length + 1 :=
    Gcm.length_ghashInput aad ciphertext
  rw [polynomial, reflect_bitrev, ← length, elem_foldl_xor, elem_zero, zero_add]
  apply Finset.sum_congr rfl
  intro k inInput
  rw [elem_mul, elem_bitrev, ofOctets_blockAt aad ciphertext (Finset.mem_range.mp inInput)]

/-- The sum of the polynomials is the polynomial of the sums, which are the powers of the key. -/
theorem polynomial_xor_polynomial {h : Block} {aad ciphertext a b : Bytes}
    (shared : ∀ i < 1088, power a i ^^^ power b i = pow (arrToBlock (bitrev h)) (i + 1))
    (fits : blocksOf aad.length + blocksOf ciphertext.length + 1 ≤ 1088) :
    Gcm.ofOctets (fun i => polynomial a aad ciphertext i ^^^ polynomial b aad ciphertext i) =
      Gcm.ghash (Gcm.ofOctets h) (Gcm.ghashInput aad ciphertext) := by
  apply Gcm.reflect_injective
  rw [Gcm.ofOctets_xor, Gcm.reflect_xor, reflect_polynomial, reflect_polynomial, Gcm.reflect_ghash,
    ← Finset.sum_add_distrib]
  apply Finset.sum_congr rfl
  intro k inInput
  have inTable : (Gcm.ghashInput aad ciphertext).length - (k + 1) < 1088 := by
    rw [Gcm.length_ghashInput]
    unfold blocksOf at fits
    omega
  have exponent : (Gcm.ghashInput aad ciphertext).length - (k + 1) + 1 =
      (Gcm.ghashInput aad ciphertext).length - k := by
    have := Finset.mem_range.mp inInput
    omega
  rw [← mul_add, ← elem_xor, shared _ inTable, elem_pow, elem_bitrev, exponent]

/-- Two parties that share the powers of the hash key share the hash. -/
theorem share_xor_share (h : Block) (aad ciphertext : Bytes) (a b : Bytes)
    (shared : ∀ i < 1088, power a i ^^^ power b i = pow (arrToBlock (bitrev h)) (i + 1)) :
    let n := blocksOf aad.length + blocksOf ciphertext.length + 1
    (∀ powers, share powers aad ciphertext = none ↔ 1088 < n) ∧
      (n ≤ 1088 → ∃ ofA ofB, share a aad ciphertext = some ofA ∧ share b aad ciphertext = some ofB ∧
        Gcm.ofOctets (fun i => ofA i ^^^ ofB i) =
          Gcm.ghash (Gcm.ofOctets h) (Gcm.ghashInput aad ciphertext)) := by
  intro n
  refine ⟨fun powers => share_eq_none_iff powers aad ciphertext, fun fits => ?_⟩
  exact ⟨_, _, share_eq_some a fits, share_eq_some b fits, polynomial_xor_polynomial shared fits⟩

theorem power_table (entries : Fin 1088 → BitVec 128) {i : ℕ} (inTable : i < 1088) :
    power (table entries) i = entries ⟨i, inTable⟩ := by
  have entry := field_flattenArrays (fun i => blockToArr (entries i)) ⟨i, inTable⟩
  rw [power, table, Nat.mul_comm, entry, arrToBlock_blockToArr]

section Sample

def sampleKey : Block := fun i => UInt8.ofNat (0x66 + 13 * i.val)

/-- The share of the prover; that of the verifier is a counter. -/
def sampleShare : Bytes := table fun i =>
  pow (arrToBlock (bitrev sampleKey)) (i.val + 1) ^^^ BitVec.ofNat 128 i.val

def sampleAad : Bytes := [23, 3, 3, 0, 33]

theorem sampleShare_xor_share :
    ∃ ofA ofB, share sampleShare sampleAad (List.replicate 17 0x5c) = some ofA ∧
      share (table fun i => BitVec.ofNat 128 i.val) sampleAad (List.replicate 17 0x5c) = some ofB ∧
      Gcm.ofOctets (fun i => ofA i ^^^ ofB i) =
        Gcm.ghash (Gcm.ofOctets sampleKey)
          (Gcm.ghashInput sampleAad (List.replicate 17 0x5c)) := by
  have shared : ∀ i < 1088, power sampleShare i ^^^ power (table fun i => BitVec.ofNat 128 i.val) i =
      pow (arrToBlock (bitrev sampleKey)) (i + 1) := by
    intro i inTable
    rw [sampleShare, power_table _ inTable, power_table _ inTable, BitVec.xor_assoc,
      BitVec.xor_self, BitVec.xor_zero]
  exact (share_xor_share sampleKey sampleAad (List.replicate 17 0x5c) sampleShare _ shared).2
    (by decide)

end Sample

end Shares

end PracticalCrypto.Surf.GHash
