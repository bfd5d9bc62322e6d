import PracticalCrypto.Library.WordWires
import PracticalCrypto.Mta.Batched
import PracticalCrypto.Surf.Circuit.Gadgets
import PracticalCrypto.Surf.GHash

/-!
# Shares of the powers of the hash key

This file embeds `make_gcm_share` of `surf-impl/src/ssl/ThreePartyHandshake.cpp` for
both parties of a run, with the circuit `DeriveGCMMultiplicativeShares` of
`2pc/DeriveCircuits.cpp` and the gadgets of `2pc/CircuitSynthesis.cpp` that it uses.

The circuit multiplies on wires as `F2128_MTA::mul` does on registers, so each gadget
is compared with the instruction that it is named after.
-/

namespace PracticalCrypto.Surf

open Wires F2128Mta Gf128

namespace CircuitSynthesis

section Model

/-- `shuffle_epi32`. -/
def shuffleEpi32 (a : List Bool) (imm : ℕ) : List Bool :=
  (List.range 4).flatMap fun i => slice a (32 * (imm / 4 ^ i % 4)) 32

/-- `and_si128`. -/
def andSi128 (a b : List Bool) : List Bool := List.zipWith (· && ·) a b

/-- `andnot_si128`. -/
def andnotSi128 (a b : List Bool) : List Bool := List.zipWith (fun x y => !x && y) a b

/-- `shift_si128`, which counts bytes. -/
def shiftSi128 (left : Bool) (a : List Bool) (imm : ℕ) : List Bool :=
  let shiftBy := 8 * if imm > 15 then 16 else imm
  if left then List.replicate shiftBy false ++ slice a 0 (128 - shiftBy)
  else slice a shiftBy (128 - shiftBy) ++ List.replicate shiftBy false

/-- `shift_single_epi32`. -/
def shiftSingleEpi32 (left : Bool) (a : List Bool) (imm : ℕ) : List Bool :=
  if left then List.replicate imm false ++ slice a 0 (32 - imm)
  else slice a imm (32 - imm) ++ List.replicate imm false

/-- `shift_epi32`. -/
def shiftEpi32 (left : Bool) (a : List Bool) (imm : ℕ) : List Bool :=
  let shiftBy := if imm > 31 then 32 else imm
  (List.range 4).flatMap fun i => shiftSingleEpi32 left (slice a (32 * i) 32) shiftBy

/-- The AND gates of one column of `pclmulqdq`. -/
def columnGate (a b : List Bool) (i j : ℕ) : Bool := a.getD j false && b.getD (i - j) false

/-- An output wire of the first loop of `pclmulqdq`. -/
def lowColumn (a b : List Bool) (i : ℕ) : Bool :=
  (List.range i).foldl (fun tmp k => xor tmp (columnGate a b i (k + 1))) (columnGate a b i 0)

/-- An output wire of the second loop of `pclmulqdq`. -/
def highColumn (a b : List Bool) (i : ℕ) : Bool :=
  (List.range (127 - i)).foldl (fun tmp k => xor tmp (columnGate a b i (i - 63 + k))) false

/-- `pclmulqdq`, which reads the first 64 wires of each operand. -/
def pclmulqdq (a b : List Bool) : List Bool :=
  (List.range 64).map (lowColumn a b) ++ (List.range' 64 63).map (highColumn a b) ++ [false]

/-- `gcm_mult`. -/
def gcmMult (a b : List Bool) : List Bool :=
  let xmmMask := List.replicate 32 true ++ List.replicate 96 false
  let tmp3 := pclmulqdq a b
  let tmp6 := pclmulqdq (a.drop 64) (b.drop 64)
  let tmp4 := shuffleEpi32 a 78
  let tmp5 := shuffleEpi32 b 78
  let tmp4 := xorWires tmp4 a
  let tmp5 := xorWires tmp5 b
  let tmp4 := pclmulqdq tmp4 tmp5
  let tmp4 := xorWires tmp4 tmp3
  let tmp4 := xorWires tmp4 tmp6
  let tmp5 := shiftSi128 true tmp4 8
  let tmp4 := shiftSi128 false tmp4 8
  let tmp3 := xorWires tmp3 tmp5
  let tmp6 := xorWires tmp6 tmp4
  let tmp7 := shiftEpi32 false tmp6 31
  let tmp8 := shiftEpi32 false tmp6 30
  let tmp9 := shiftEpi32 false tmp6 25
  let tmp7 := xorWires tmp7 tmp8
  let tmp7 := xorWires tmp7 tmp9
  let tmp8 := shuffleEpi32 tmp7 147
  let tmp7 := andSi128 xmmMask tmp8
  let tmp8 := andnotSi128 xmmMask tmp8
  let tmp3 := xorWires tmp3 tmp8
  let tmp6 := xorWires tmp6 tmp7
  let tmp10 := shiftEpi32 true tmp6 1
  let tmp3 := xorWires tmp3 tmp10
  let tmp11 := shiftEpi32 true tmp6 2
  let tmp3 := xorWires tmp3 tmp11
  let tmp12 := shiftEpi32 true tmp6 7
  let tmp3 := xorWires tmp3 tmp12
  xorWires tmp6 tmp3

end Model

section Gadgets

theorem flatMap_lanes (lanes : ℕ → BitVec 32) :
    ((List.range 4).flatMap fun i => ofWord (lanes i)) = ofWord (Sse.ofLanes lanes) := by
  rw [Sse.ofLanes, ← ofWord_append, ← ofWord_append, ← ofWord_append]
  simp [List.range_succ]

theorem slice_lane (a : BitVec 128) {i : ℕ} (inLanes : i < 4) :
    slice (ofWord a) (32 * i) 32 = ofWord (Sse.lane a i) :=
  slice_ofWord a (by omega)

theorem shuffleEpi32_ofWord (a : BitVec 128) (imm : ℕ) :
    shuffleEpi32 (ofWord a) imm = ofWord (Sse.shuffleEpi32 a imm) := by
  rw [Sse.shuffleEpi32, ← flatMap_lanes, shuffleEpi32]
  simp only [slice_lane a (Nat.mod_lt _ (by decide : 4 > 0))]

theorem shiftSi128_left (a : BitVec 128) (imm : ℕ) :
    shiftSi128 true (ofWord a) imm = ofWord (Sse.slliSi128 a imm) := by
  rw [shiftSi128, if_pos rfl, ofWord_shiftLeft a (by split_ifs <;> omega), Sse.slliSi128]
  split_ifs with beyond
  · rw [BitVec.shiftLeft_eq_zero (by omega), BitVec.shiftLeft_eq_zero (by omega)]
  · rfl

theorem shiftSi128_right (a : BitVec 128) (imm : ℕ) :
    shiftSi128 false (ofWord a) imm = ofWord (Sse.srliSi128 a imm) := by
  rw [shiftSi128, if_neg (by decide), ofWord_shiftRight a (by split_ifs <;> omega), Sse.srliSi128]
  split_ifs with beyond
  · rw [BitVec.ushiftRight_eq_zero (by omega), BitVec.ushiftRight_eq_zero (by omega)]
  · rfl

theorem shiftEpi32_left (a : BitVec 128) (imm : ℕ) :
    shiftEpi32 true (ofWord a) imm = ofWord (Sse.slliEpi32 a imm) := by
  rw [Sse.slliEpi32, ← flatMap_lanes, shiftEpi32]
  apply List.flatMap_congr
  intro i inLanes
  rw [slice_lane a (List.mem_range.mp inLanes), shiftSingleEpi32, if_pos rfl,
    ofWord_shiftLeft _ (by split_ifs <;> omega)]
  split_ifs with beyond
  · rw [BitVec.shiftLeft_eq_zero (by omega), BitVec.shiftLeft_eq_zero (by omega)]
  · rfl

theorem shiftEpi32_right (a : BitVec 128) (imm : ℕ) :
    shiftEpi32 false (ofWord a) imm = ofWord (Sse.srliEpi32 a imm) := by
  rw [Sse.srliEpi32, ← flatMap_lanes, shiftEpi32]
  apply List.flatMap_congr
  intro i inLanes
  rw [slice_lane a (List.mem_range.mp inLanes), shiftSingleEpi32, if_neg (by decide),
    ofWord_shiftRight _ (by split_ifs <;> omega)]
  split_ifs with beyond
  · rw [BitVec.ushiftRight_eq_zero (by omega), BitVec.ushiftRight_eq_zero (by omega)]
  · rfl

section Pclmulqdq

variable {wiresA wiresB : List Bool} {a b : BitVec 64}

theorem columnGate_eq (carriesA : ∀ j < 64, wiresA.getD j false = a.getLsbD j)
    (carriesB : ∀ j < 64, wiresB.getD j false = b.getLsbD j) {i j : ℕ} (inA : j < 64)
    (inB : i - j < 64) : columnGate wiresA wiresB i j = (a.getLsbD j && b.getLsbD (i - j)) := by
  rw [columnGate, carriesA j inA, carriesB (i - j) inB]

theorem lowColumn_eq (carriesA : ∀ j < 64, wiresA.getD j false = a.getLsbD j)
    (carriesB : ∀ j < 64, wiresB.getD j false = b.getLsbD j) {i : ℕ} (low : i < 64) :
    lowColumn wiresA wiresB i = (BinaryWord.clmul a b).getLsbD i := by
  apply bit_injective
  rw [lowColumn, bit_foldl_xor, bit_clmul, Finset.sum_range_succ', add_comm,
    columnGate_eq carriesA carriesB (by omega) (by omega)]
  congr 1
  apply Finset.sum_congr rfl
  intro k inColumn
  have := Finset.mem_range.mp inColumn
  rw [columnGate_eq carriesA carriesB (by omega) (by omega)]

theorem highColumn_eq (carriesA : ∀ j < 64, wiresA.getD j false = a.getLsbD j)
    (carriesB : ∀ j < 64, wiresB.getD j false = b.getLsbD j) {i : ℕ} (high : 64 ≤ i)
    (inProduct : i < 128) : highColumn wiresA wiresB i = (BinaryWord.clmul a b).getLsbD i := by
  apply bit_injective
  rw [highColumn, bit_foldl_xor, bit_clmul_of_ge _ _ high inProduct]
  rw [show bit false = 0 from rfl, zero_add]
  apply Finset.sum_congr rfl
  intro k inColumn
  have := Finset.mem_range.mp inColumn
  rw [columnGate_eq carriesA carriesB (by omega) (by omega)]

theorem pclmulqdq_eq (carriesA : ∀ j < 64, wiresA.getD j false = a.getLsbD j)
    (carriesB : ∀ j < 64, wiresB.getD j false = b.getLsbD j) :
    pclmulqdq wiresA wiresB = ofWord (BinaryWord.clmul a b) := by
  -- The last wire is an empty sum.
  have lastColumn : [false] = [127].map (BinaryWord.clmul a b).getLsbD := by
    rw [List.map_singleton, ← highColumn_eq carriesA carriesB (by decide) (by decide)]
    rfl
  have columns : List.range 128 = List.range 64 ++ List.range' 64 63 ++ [127] := by
    decide
  have lowColumns : (List.range 64).map (lowColumn wiresA wiresB) =
      (List.range 64).map (BinaryWord.clmul a b).getLsbD := by
    apply List.map_congr_left
    intro i low
    exact lowColumn_eq carriesA carriesB (List.mem_range.mp low)
  have highColumns : (List.range' 64 63).map (highColumn wiresA wiresB) =
      (List.range' 64 63).map (BinaryWord.clmul a b).getLsbD := by
    apply List.map_congr_left
    intro i high
    have inHigh := List.mem_range'_1.mp high
    exact highColumn_eq carriesA carriesB inHigh.1 (by omega)
  rw [pclmulqdq, lowColumns, highColumns, lastColumn, ← List.map_append, ← List.map_append,
    ← columns, ofWord]

end Pclmulqdq

theorem pclmulqdq_low (a b : BitVec 128) :
    pclmulqdq (ofWord a) (ofWord b) = ofWord (Sse.clmulepi64Si128 a b 0x00) := by
  have lowHalf : ∀ (c : BitVec 128), ∀ j < 64,
      (ofWord c).getD j false = (Sse.half c 0).getLsbD j := by
    intro c j inHalf
    rw [getD_ofWord]
    simp [Sse.half, inHalf]
  exact pclmulqdq_eq (lowHalf a) (lowHalf b)

theorem pclmulqdq_high (a b : BitVec 128) :
    pclmulqdq ((ofWord a).drop 64) ((ofWord b).drop 64) =
      ofWord (Sse.clmulepi64Si128 a b 0x11) := by
  have highHalf : ∀ (c : BitVec 128), ∀ j < 64,
      ((ofWord c).drop 64).getD j false = (Sse.half c 1).getLsbD j := by
    intro c j inHalf
    rw [List.getD_eq_getElem?_getD, List.getElem?_drop, ← List.getD_eq_getElem?_getD, getD_ofWord]
    simp [Sse.half, inHalf]
  exact pclmulqdq_eq (highHalf a) (highHalf b)

theorem xmmMask_eq : List.replicate 32 true ++ List.replicate 96 false =
    ofWord (Sse.setrEpi32 (-1#32) 0 0 0) := by
  decide

theorem gcmMult_ofWord (a b : BitVec 128) : gcmMult (ofWord a) (ofWord b) = ofWord (mul a b) := by
  simp only [gcmMult, mul, pclmulqdq_low, pclmulqdq_high, shuffleEpi32_ofWord, xorWires_ofWord,
    shiftSi128_left, shiftSi128_right, shiftEpi32_left, shiftEpi32_right, andSi128, andnotSi128,
    Sse.andnotSi128, xmmMask_eq, zipWith_and_ofWord, zipWith_andnot_ofWord]

end Gadgets

end CircuitSynthesis

section Model

/-- `GCMCircuitIn`. -/
structure GcmCircuitIn where
  keyShare : Block
  xorMask : Block

/-- `DeriveGCMMultiplicativeShares`, from the input wires of each party to the revealed wires. -/
def deriveGcmMultiplicativeShares (raw : List Bool → List Bool → List Bool)
    (bob alice : List Bool) : List Bool :=
  let key := xorWires (slice alice 0 128) (slice bob 0 128)
  let gcmKeyRaw := raw key (List.replicate 128 false)
  let c := CircuitSynthesis.gcmMult gcmKeyRaw (slice bob 128 128)
  xorWires c (slice alice 128 128)

/-- The input array of `run_gcm_share_circuit`, with the key share in reverse. -/
def GcmCircuitIn.pack (input : GcmCircuitIn) : List UInt8 :=
  List.ofFn (input.keyShare ∘ Fin.rev) ++ List.ofFn input.xorMask

/-- `run_gcm_share_circuit`, for the two parties of one circuit. -/
def runGcmShareCircuit (raw : List Bool → List Bool → List Bool) (prover verifier : GcmCircuitIn) :
    Block :=
  field (toBytes 16 (deriveGcmMultiplicativeShares raw (ofBytes verifier.pack)
    (ofBytes prover.pack))) 0 16

/-- The input of a party to the MtA in `make_gcm_share`. -/
def mtaInput (isVerifier : Bool) (xorMask powerShare : Block) : BitVec 128 :=
  let unmasked := if isVerifier then powerShare else fun i => powerShare i ^^^ xorMask i
  if isVerifier then inv (arrToBlock xorMask) else arrToBlock unmasked

/-- `make_gcm_share` of both parties, to the table of the prover and the one of the verifier. -/
def makeGcmShare (raw : List Bool → List Bool → List Bool) (ot : Ot) (sender : SenderRandom)
    (receiver : ReceiverRandom) (prover verifier : GcmCircuitIn) : Option (Bytes × Bytes) := do
  let powerShare := runGcmShareCircuit raw prover verifier
  let (ofProver, ofVerifier) ← generateSharesBatched ot sender receiver
    (mtaInput false prover.xorMask powerShare) (mtaInput true verifier.xorMask powerShare)
  some (GHash.table fun i => ofProver i.val, GHash.table fun i => ofVerifier i.val)

end Model

section Circuit

theorem ofWord_arrToBlock (block : Block) : ofWord (arrToBlock block) = blockWires block := by
  symm
  apply eq_ofWord
  · simp [blockWires]
  · intro i inBlock
    rw [getLsbD_arrToBlock _ (by omega), blockWires, getD_ofBytes, getD_ofFn _ _ (by omega)]

theorem ofWord_blockToArr (word : BitVec 128) : blockWires (blockToArr word) = ofWord word := by
  rw [← ofWord_arrToBlock, arrToBlock_blockToArr]

theorem arrToBlock_injective : Function.Injective arrToBlock := by
  intro a b same
  apply List.ofFn_injective
  apply ofBytes_injective
  have := congrArg ofWord same
  rwa [ofWord_arrToBlock, ofWord_arrToBlock] at this

theorem arrToBlock_zero : arrToBlock (fun _ => 0) = 0#128 := by
  decide +kernel

variable {raw : List Bool → List Bool → List Bool} {aes : Block → Block → Block}

theorem GcmCircuitIn.slice_pack (input : GcmCircuitIn) :
    slice (ofBytes input.pack) 0 128 = blockWires (input.keyShare ∘ Fin.rev) ∧
      slice (ofBytes input.pack) 128 128 = ofWord (arrToBlock input.xorMask) := by
  have sized : [List.ofFn (input.keyShare ∘ Fin.rev), List.ofFn input.xorMask].map List.length =
      [16, 16] := by
    simp
  have part := slice_flatten sized
  simp only [List.flatten_cons, List.flatten_nil, List.append_nil] at part
  rw [ofWord_arrToBlock]
  exact ⟨slice_ofBytes_eq (part 0) rfl rfl, slice_ofBytes_eq (part 1) rfl rfl⟩

/-- The netlist on the reversed key and zeros gives the hash key in the order of the MtA. -/
theorem raw_hashKey (computes : ComputesAes raw aes) (key : Block) :
    raw (blockWires (key ∘ Fin.rev)) (List.replicate 128 false) =
      ofWord (arrToBlock (GHash.bitrev (aes key fun _ => 0))) := by
  have zeros : List.replicate 128 false = blockWires fun _ => 0 := by
    decide
  rw [zeros, computes, ofWord_arrToBlock]
  apply congrArg blockWires
  funext i
  simp [GHash.bitrev, GHash.bitrevByte_eq, Function.comp_def]

/-- The circuit reveals the hash key times the mask of the verifier, under the prover's mask. -/
theorem arrToBlock_runGcmShareCircuit (computes : ComputesAes raw aes)
    (prover verifier : GcmCircuitIn) :
    let key : Block := fun i => prover.keyShare i ^^^ verifier.keyShare i
    arrToBlock (runGcmShareCircuit raw prover verifier) =
      mul (arrToBlock (GHash.bitrev (aes key fun _ => 0))) (arrToBlock verifier.xorMask) ^^^
        arrToBlock prover.xorMask := by
  intro key
  have revealed : deriveGcmMultiplicativeShares raw (ofBytes verifier.pack) (ofBytes prover.pack) =
      ofWord (mul (arrToBlock (GHash.bitrev (aes key fun _ => 0))) (arrToBlock verifier.xorMask) ^^^
        arrToBlock prover.xorMask) := by
    obtain ⟨keyOfProver, maskOfProver⟩ := prover.slice_pack
    obtain ⟨keyOfVerifier, maskOfVerifier⟩ := verifier.slice_pack
    rw [deriveGcmMultiplicativeShares, keyOfProver, maskOfProver, keyOfVerifier, maskOfVerifier,
      xorWires_blockWires]
    have joint := raw_hashKey computes key
    simp only [Function.comp_def] at joint ⊢
    rw [joint, CircuitSynthesis.gcmMult_ofWord, xorWires_ofWord]
  have array : ∀ block : Block, field (List.ofFn block) 0 16 = block := by
    intro block
    apply List.ofFn_injective
    rw [ofFn_field _ (by simp), slice_all _ (by simp)]
  rw [runGcmShareCircuit, revealed, ← ofWord_blockToArr, blockWires, toBytes_ofBytes (by simp),
    array, arrToBlock_blockToArr]

end Circuit

/--
The tables of the two parties share the powers of the hash key. The mask of the verifier
cancels against its inverse, which the verifier brings into the MtA.
-/
theorem makeGcmShare_power {raw : List Bool → List Bool → List Bool}
    {aes : Block → Block → Block} (computes : ComputesAes raw aes) {ot : Ot}
    (correct : CorrectOt ot) (sender : SenderRandom) (receiver : ReceiverRandom)
    (prover verifier : GcmCircuitIn) (masked : verifier.xorMask ≠ fun _ => 0)
    {tables : Bytes × Bytes}
    (succeeds : makeGcmShare raw ot sender receiver prover verifier = some tables) :
    let h := GHash.bitrev (aes (fun i => prover.keyShare i ^^^ verifier.keyShare i) fun _ => 0)
    ∀ i < 1088,
      GHash.power tables.1 i ^^^ GHash.power tables.2 i = pow (arrToBlock h) (i + 1) := by
  intro h i inTable
  rw [makeGcmShare] at succeeds
  obtain ⟨⟨ofProver, ofVerifier⟩, completed, returned⟩ := Option.bind_eq_some_iff.mp succeeds
  obtain rfl := Option.some.inj returned
  have inverse : elem (inv (arrToBlock verifier.xorMask)) * elem (arrToBlock verifier.xorMask) = 1 := by
    apply elem_inv_mul
    rw [← arrToBlock_zero]
    exact arrToBlock_injective.ne masked
  have unmasked : mtaInput false prover.xorMask (runGcmShareCircuit raw prover verifier) =
      mul (arrToBlock h) (arrToBlock verifier.xorMask) := by
    rw [mtaInput, if_neg (by decide), if_neg (by decide), arrToBlock_xor,
      arrToBlock_runGcmShareCircuit computes, BitVec.xor_assoc, BitVec.xor_self, BitVec.xor_zero]
  have powers := elem_generateSharesBatched correct completed inTable
  rw [unmasked, elem_mul] at powers
  apply elem_injective
  rw [GHash.power_table _ inTable, GHash.power_table _ inTable, elem_xor, elem_pow, powers]
  rw [mtaInput, if_pos rfl, mul_assoc, mul_comm (elem (arrToBlock verifier.xorMask)), inverse,
    mul_one]

section Sample

def sampleProver : GcmCircuitIn where
  keyShare := fun i => UInt8.ofNat (0x2b + 7 * i.val)
  xorMask := fun i => UInt8.ofNat (0x11 * i.val)

def sampleVerifier : GcmCircuitIn where
  keyShare := fun i => UInt8.ofNat (0x7e + 31 * i.val)
  xorMask := fun i => UInt8.ofNat (0x80 + i.val)

def sampleOt : Ot := fun zeros ones choices i => if choices i then ones i else zeros i

def sampleSender : SenderRandom where
  aTilde := fun _ => 1
  aHat := fun _ => 0
  pads := fun _ => 0
  chi := fun _ => 1

def sampleReceiver : ReceiverRandom where
  gadget := fun j => BitVec.ofNat 128 (2 ^ (j % 128))
  beta := fun _ => 0
  chi := fun _ => 0

/-- Without choices and pads, a row compares zero with the product of the challenge. -/
theorem sampleCheck :
    checkConsistencyBatched (proveConsistencyBatched sampleSender sampleReceiver.chi)
      (received sampleOt sampleSender sampleReceiver) sampleSender.chi sampleReceiver.chi
      (getBatchedChoiceBits sampleReceiver.beta) = true := by
  have noChoice : ∀ k, getBatchedChoiceBits sampleReceiver.beta k = false := by
    intro k
    simp [getBatchedChoiceBits, sampleReceiver]
  have noPad : ∀ k, received sampleOt sampleSender sampleReceiver k = 0#128 := by
    intro k
    simp [received, sampleOt, noChoice, sampleSender]
  have zeroTerm : 0#128 ^^^ (mul 1#128 0#128 ^^^ mul 0#128 0#128) = 0#128 := by
    decide +kernel
  have oneTerm : mul 1#128 1#128 ^^^ mul 0#128 0#128 = 1#128 := by
    decide +kernel
  have even : ∀ i, proveConsistencyBatched sampleSender sampleReceiver.chi (2 * i) = 1#128 := by
    intro i
    rw [proveConsistencyBatched, if_pos (Nat.mul_mod_right 2 i)]
    exact oneTerm
  have odd : ∀ i, proveConsistencyBatched sampleSender sampleReceiver.chi (2 * i + 1) = 0#128 := by
    intro i
    rw [proveConsistencyBatched, if_neg (by omega)]
    apply List.foldl_fixed'
    intro j
    exact zeroTerm
  rw [checkConsistencyBatched]
  apply List.foldl_fixed'
  intro i
  simp only [even, odd, everySecond, noPad, noChoice, Bool.false_eq_true, if_false,
    Bool.true_and, List.foldl_fixed]
  rw [List.foldl_fixed' fun j => ?_]
  · decide
  · exact zeroTerm

def sampleTables : Bytes × Bytes :=
  (makeGcmShare (netlistOf Aes.encrypt) sampleOt sampleSender sampleReceiver sampleProver
    sampleVerifier).getD ([], [])

theorem makeGcmShare_sample :
    makeGcmShare (netlistOf Aes.encrypt) sampleOt sampleSender sampleReceiver sampleProver
      sampleVerifier = some sampleTables := by
  rw [sampleTables, makeGcmShare, generateSharesBatched, if_pos sampleCheck]
  rfl

theorem makeGcmShare_power_sample :
    GHash.power sampleTables.1 5 ^^^ GHash.power sampleTables.2 5 =
      pow (arrToBlock (GHash.bitrev (Aes.encrypt
        (fun i => sampleProver.keyShare i ^^^ sampleVerifier.keyShare i) fun _ => 0))) 6 := by
  apply makeGcmShare_power (computesAes_netlistOf Aes.encrypt) (fun _ _ _ _ => rfl) sampleSender
    sampleReceiver sampleProver sampleVerifier _ makeGcmShare_sample 5 (by decide)
  intro same
  exact absurd (congrFun same 0) (by decide)

end Sample

end PracticalCrypto.Surf
