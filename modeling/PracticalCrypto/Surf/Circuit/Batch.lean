import PracticalCrypto.Surf.Circuit.Gadgets
import PracticalCrypto.Surf.Prover.Request

/-!
# The batch circuits

This file embeds the circuits `DeriveKeystreamBatch` and `DeriveAESEncBatch` of
`surf-impl/src/2pc/DeriveCircuits.cpp` for any number of slots, and the functions
`run_ks_batch_circuit` and `run_aes_enc_batch_circuit` of
`ssl/ThreePartyHandshake.cpp`, which use them with 16 slots.

Both circuits run the same loop. A slot adds its check to one conjunction and its
block to the output, and after the last slot the conjunction gates every wire of
the output.
-/

namespace PracticalCrypto.Surf

open Wires

/-- `KSBatchCircuitIn`; `s` and `r` matter for the prover and `d` for the verifier only. -/
structure KsBatchCircuitIn (n : ℕ) where
  key : Block
  ctr : Fin n → Block
  s : Block
  r : Block
  d : Fin 32 → UInt8

/-- `KSBatchCircuitOut`. -/
structure KsBatchCircuitOut (n : ℕ) where
  maskedKs : Fin n → Block
  ok : Bool

/-- `AESEncBatchCircuitIn`; `pt` matters for the prover only. -/
structure AesEncBatchCircuitIn (n : ℕ) where
  key : Block
  ctr : Fin n → Block
  pt : Fin n → Block

/-- `AESEncBatchCircuitOut`. -/
structure AesEncBatchCircuitOut (n : ℕ) where
  ct : Fin n → Block
  ok : Bool

section Model

variable (raw : List Bool → List Bool → List Bool) (n : ℕ)

/-- The loop over the slots and the gates after it, from the checks made before the loop. -/
def gatedBatch (opened : Bool) (agree : ℕ → Bool) (block : ℕ → List Bool) : List Bool :=
  let (ok, out) := (List.range n).foldl
    (fun (ok, out) blk => (ok && agree blk, out ++ block blk)) (opened, [])
  out.map (· && ok) ++ List.replicate 8 ok

/-- `DeriveKeystreamBatch`, from the input wires of each party to the revealed wires. -/
def deriveKeystreamBatch (bob alice : List Bool) : List Bool :=
  let offCtr := 128
  let offS := offCtr + 128 * n
  let offR := offS + 128
  let offD := offR + 128
  let key := xorWires (slice alice 0 128) (slice bob 0 128)
  let commit := hiroseCommit raw (slice alice offR 128) (slice alice offS 128)
    (blockWires Prover.hiroseConstant)
  gatedBatch n (true && equalsGate commit (slice bob offD 256))
    (fun blk => equalsGate (slice alice (offCtr + 128 * blk) 128)
      (slice bob (offCtr + 128 * blk) 128))
    (fun blk => xorWires (aes128Encrypt raw key (slice alice (offCtr + 128 * blk) 128))
      (aes128Encrypt raw (slice alice offS 128) (slice alice (offCtr + 128 * blk) 128)))

/-- `DeriveAESEncBatch`, from the input wires of each party to the revealed wires. -/
def deriveAesEncBatchWires (bob alice : List Bool) : List Bool :=
  let offCtr := 128
  let offPt := offCtr + 128 * n
  let key := xorWires (slice alice 0 128) (slice bob 0 128)
  gatedBatch n true
    (fun blk => equalsGate (slice alice (offCtr + 128 * blk) 128)
      (slice bob (offCtr + 128 * blk) 128))
    (fun blk => xorWires (aes128Encrypt raw key (slice alice (offCtr + 128 * blk) 128))
      (slice alice (offPt + 128 * blk) 128))

variable {n}

/-- The input array of `run_ks_batch_circuit`. -/
def KsBatchCircuitIn.pack (input : KsBatchCircuitIn n) : List UInt8 :=
  [List.ofFn input.key, flattenArrays input.ctr, List.ofFn input.s, List.ofFn input.r,
    List.ofFn input.d].flatten

/-- The input array of `run_aes_enc_batch_circuit`. -/
def AesEncBatchCircuitIn.pack (input : AesEncBatchCircuitIn n) : List UInt8 :=
  [List.ofFn input.key, flattenArrays input.ctr, flattenArrays input.pt].flatten

variable (n) in
/-- The decoding of both functions: the blocks of the slots, then the repeated bit. -/
def unpackBatch (output : List UInt8) : Option ((Fin n → Block) × Bool) := do
  let ok ← repeatedBit (output.getD (16 * n) 0)
  some (fun i => field output (16 * i.val) 16, ok)

/-- `run_ks_batch_circuit`, for the two parties of one circuit. -/
def runKsBatchCircuit (prover verifier : KsBatchCircuitIn n) : Option (KsBatchCircuitOut n) := do
  let (maskedKs, ok) ← unpackBatch n (toBytes (16 * n + 1)
    (deriveKeystreamBatch raw n (ofBytes verifier.pack) (ofBytes prover.pack)))
  some { maskedKs, ok }

/-- `run_aes_enc_batch_circuit`, for the two parties of one circuit. -/
def runAesEncBatchCircuit (prover verifier : AesEncBatchCircuitIn n) :
    Option (AesEncBatchCircuitOut n) := do
  let (ct, ok) ← unpackBatch n (toBytes (16 * n + 1)
    (deriveAesEncBatchWires raw n (ofBytes verifier.pack) (ofBytes prover.pack)))
  some { ct, ok }

end Model

section Packing

variable {n : ℕ}

/-- A slot of blocks that are packed at `offset`, on wires whose offsets are written in bits. -/
theorem slice_ofBytes_slot {bytes : List UInt8} (offset : ℕ) {blocks : Fin n → Block}
    (packed : slice bytes offset (16 * n) = flattenArrays blocks) (i : Fin n) :
    slice (ofBytes bytes) (8 * offset + 128 * i.val) 128 = blockWires (blocks i) := by
  have slot : slice bytes (offset + 16 * i.val) 16 = List.ofFn (blocks i) := by
    rw [← slice_flattenArrays, ← packed, slice_slice]
    omega
  exact slice_ofBytes_eq slot (by omega) rfl

theorem KsBatchCircuitIn.slice_pack (input : KsBatchCircuitIn n) :
    slice (ofBytes input.pack) 0 128 = blockWires input.key ∧
      (∀ i : Fin n,
        slice (ofBytes input.pack) (128 + 128 * i.val) 128 = blockWires (input.ctr i)) ∧
      slice (ofBytes input.pack) (128 + 128 * n) 128 = blockWires input.s ∧
      slice (ofBytes input.pack) (128 + 128 * n + 128) 128 = blockWires input.r ∧
      slice (ofBytes input.pack) (128 + 128 * n + 128 + 128) 256 =
        ofBytes (List.ofFn input.d) := by
  have sized : [List.ofFn input.key, flattenArrays input.ctr, List.ofFn input.s, List.ofFn input.r,
      List.ofFn input.d].map List.length = [16, 16 * n, 16, 16, 32] := by
    simp
  have part := slice_flatten sized
  refine ⟨slice_ofBytes_eq (part 0) rfl rfl, slice_ofBytes_slot 16 (part 1),
    slice_ofBytes_eq (part 2) ?_ rfl, slice_ofBytes_eq (part 3) ?_ rfl,
    slice_ofBytes_eq (part 4) ?_ rfl⟩
  all_goals
    simp only [List.take_succ_cons, List.take_zero, List.sum_cons, List.sum_nil]
    omega

theorem AesEncBatchCircuitIn.slice_pack (input : AesEncBatchCircuitIn n) :
    slice (ofBytes input.pack) 0 128 = blockWires input.key ∧
      (∀ i : Fin n,
        slice (ofBytes input.pack) (128 + 128 * i.val) 128 = blockWires (input.ctr i)) ∧
      ∀ i : Fin n,
        slice (ofBytes input.pack) (128 + 128 * n + 128 * i.val) 128 =
          blockWires (input.pt i) := by
  have sized : [List.ofFn input.key, flattenArrays input.ctr, flattenArrays input.pt].map List.length =
      [16, 16 * n, 16 * n] := by
    simp
  have part := slice_flatten sized
  have ptOffset : 128 + 128 * n = 8 * (16 + (16 * n + 0)) := by omega
  rw [ptOffset]
  exact ⟨slice_ofBytes_eq (part 0) rfl rfl, slice_ofBytes_slot 16 (part 1),
    slice_ofBytes_slot (16 + (16 * n + 0)) (part 2)⟩

end Packing

section Laws

variable {raw : List Bool → List Bool → List Bool} {aes : Block → Block → Block} {n : ℕ}

theorem foldl_slots (slots : List ℕ) (opened : Bool) (out : List Bool) (agree : ℕ → Bool)
    (block : ℕ → List Bool) :
    slots.foldl (fun (ok, out) blk => (ok && agree blk, out ++ block blk)) (opened, out) =
      (opened && slots.all agree, out ++ slots.flatMap block) := by
  induction slots generalizing opened out with
  | nil => simp
  | cons blk slots ih => simp [ih, Bool.and_assoc]

/-- The slots as the gates leave them. -/
def gateBlocks (ok : Bool) (blocks : Fin n → Block) : Fin n → Block := fun i j =>
  if ok then blocks i j else 0

theorem map_and_ofBytes (ok : Bool) (bytes : List UInt8) :
    (ofBytes bytes).map (· && ok) = ofBytes (bytes.map fun byte => if ok then byte else 0) := by
  cases ok with
  | true => simp
  | false =>
      simp only [Bool.and_false, Bool.false_eq_true, if_false, List.map_const', length_ofBytes]
      exact (ofBytes_replicate_zero bytes.length).symm

theorem gatedBatch_eq {opened : Bool} {agree : ℕ → Bool} {block : ℕ → List Bool}
    (agreed : Fin n → Prop) [DecidablePred agreed] (blocks : Fin n → Block)
    (checks : ∀ i : Fin n, agree i.val = decide (agreed i))
    (computed : ∀ i : Fin n, block i.val = blockWires (blocks i)) :
    let ok := opened && decide (∀ i, agreed i)
    gatedBatch n opened agree block =
      ofBytes (flattenArrays (gateBlocks ok blocks) ++ [repeatedByte ok]) := by
  intro ok
  have conjunction : (List.range n).all agree = decide (∀ i, agreed i) := by
    rw [Bool.eq_iff_iff]
    simp only [List.all_eq_true, List.mem_range, decide_eq_true_eq]
    constructor
    · intro every i
      simpa [checks i] using every i.val i.isLt
    · intro every i inRange
      simpa [checks ⟨i, inRange⟩] using every ⟨i, inRange⟩
  have output : (List.range n).flatMap block = ofBytes (flattenArrays blocks) :=
    flatMap_range_eq_ofBytes_flatten computed
  have gated : (flattenArrays blocks).map (fun byte => if ok then byte else 0) =
      flattenArrays (gateBlocks ok blocks) := by
    simp only [flattenArrays, List.map_flatten, List.map_ofFn]
    rfl
  simp only [gatedBatch, foldl_slots, conjunction, output, List.nil_append]
  rw [map_and_ofBytes, gated, replicate_eq_ofBytes, ← ofBytes_append]

theorem unpackBatch_pack (ok : Bool) (blocks : Fin n → Block) :
    unpackBatch n (toBytes (16 * n + 1) (ofBytes (flattenArrays blocks ++ [repeatedByte ok]))) =
      some (blocks, ok) := by
  have okByte : (flattenArrays blocks ++ [repeatedByte ok]).getD (16 * n) 0 = repeatedByte ok := by
    simp
  have slots : ∀ i : Fin n,
      field (flattenArrays blocks ++ [repeatedByte ok]) (16 * i.val) 16 = blocks i := by
    intro i
    have inSlots : 16 * i.val + 16 ≤ (flattenArrays blocks).length := by
      rw [length_flattenArrays]
      omega
    apply List.ofFn_injective
    rw [ofFn_field _ (by simp; omega), slice_append_left _ _ inSlots, slice_flattenArrays]
  rw [toBytes_ofBytes (by simp), unpackBatch, okByte, repeatedBit_repeatedByte]
  simp [slots]

/-- The block of a slot of the keystream batch. -/
def maskedKeystream (aes : Block → Block → Block) (prover verifier : KsBatchCircuitIn n) :
    Fin n → Block := fun i j =>
  aes (fun j => prover.key j ^^^ verifier.key j) (prover.ctr i) j ^^^ aes prover.s (prover.ctr i) j

/-- The block of a slot of the encryption batch. -/
def encryptedBlocks (aes : Block → Block → Block) (prover verifier : AesEncBatchCircuitIn n) :
    Fin n → Block := fun i j =>
  aes (fun j => prover.key j ^^^ verifier.key j) (prover.ctr i) j ^^^ prover.pt i j

theorem runKsBatchCircuit_eq (computes : ComputesAes raw aes)
    (prover verifier : KsBatchCircuitIn n) :
    let ok := decide (hiroseDigest aes prover.r prover.s = List.ofFn verifier.d) &&
      decide (∀ i, prover.ctr i = verifier.ctr i)
    runKsBatchCircuit raw prover verifier =
      some { maskedKs := gateBlocks ok (maskedKeystream aes prover verifier), ok } := by
  intro ok
  obtain ⟨aliceKey, aliceCtr, aliceS, aliceR, -⟩ := prover.slice_pack
  obtain ⟨bobKey, bobCtr, -, -, bobD⟩ := verifier.slice_pack
  have digestLength : (hiroseDigest aes prover.r prover.s).length =
      (List.ofFn verifier.d).length := by
    simp [hiroseDigest]
  simp only [runKsBatchCircuit, deriveKeystreamBatch, aliceKey, aliceS, aliceR, bobKey, bobD,
    xorWires_blockWires, hiroseCommit_blockWires computes, equalsGate_ofBytes digestLength,
    Bool.true_and]
  rw [gatedBatch_eq (fun i => prover.ctr i = verifier.ctr i) (maskedKeystream aes prover verifier),
    unpackBatch_pack]
  · rfl
  · intro i
    rw [aliceCtr, bobCtr, equalsGate_blockWires]
  · intro i
    rw [aliceCtr, aes128Encrypt_blockWires computes, aes128Encrypt_blockWires computes,
      xorWires_blockWires]
    rfl

theorem runAesEncBatchCircuit_eq (computes : ComputesAes raw aes)
    (prover verifier : AesEncBatchCircuitIn n) :
    let ok := decide (∀ i, prover.ctr i = verifier.ctr i)
    runAesEncBatchCircuit raw prover verifier =
      some { ct := gateBlocks ok (encryptedBlocks aes prover verifier), ok } := by
  intro ok
  obtain ⟨aliceKey, aliceCtr, alicePt⟩ := prover.slice_pack
  obtain ⟨bobKey, bobCtr, -⟩ := verifier.slice_pack
  simp only [runAesEncBatchCircuit, deriveAesEncBatchWires, aliceKey, bobKey, xorWires_blockWires]
  rw [gatedBatch_eq (fun i => prover.ctr i = verifier.ctr i) (encryptedBlocks aes prover verifier),
    unpackBatch_pack, Bool.true_and]
  · rfl
  · intro i
    rw [aliceCtr, bobCtr, equalsGate_blockWires]
  · intro i
    rw [aliceCtr, alicePt, aes128Encrypt_blockWires computes, xorWires_blockWires]
    rfl

/--
A batch is released as a whole or not at all. One slot with different counters, or
a seed that the commitment does not open to, zeroes the blocks of all slots.
-/
theorem batchCircuits_allOrNothing (computes : ComputesAes raw aes) (n : ℕ) :
    (∀ prover verifier : KsBatchCircuitIn n,
      ∃ out, runKsBatchCircuit raw prover verifier = some out ∧
        (out.ok = true ↔ (∀ i, prover.ctr i = verifier.ctr i) ∧
          Prover.hiroseCommitHost (fun key pt => some (aes key pt)) prover.r prover.s =
            some (List.ofFn verifier.d)) ∧
        (out.ok = true → ∀ i, out.maskedKs i = fun j =>
          aes (fun j => prover.key j ^^^ verifier.key j) (prover.ctr i) j ^^^
            aes prover.s (prover.ctr i) j) ∧
        (out.ok = false → ∀ i, out.maskedKs i = fun _ => 0)) ∧
    ∀ prover verifier : AesEncBatchCircuitIn n,
      ∃ out, runAesEncBatchCircuit raw prover verifier = some out ∧
        (out.ok = true ↔ ∀ i, prover.ctr i = verifier.ctr i) ∧
        (out.ok = true → ∀ i, out.ct i = fun j =>
          aes (fun j => prover.key j ^^^ verifier.key j) (prover.ctr i) j ^^^ prover.pt i j) ∧
        (out.ok = false → ∀ i, out.ct i = fun _ => 0) := by
  have released : ∀ {ok : Bool} (blocks : Fin n → Block), ok = true →
      ∀ i, gateBlocks ok blocks i = blocks i := by
    rintro ok blocks rfl i
    rfl
  have withheld : ∀ {ok : Bool} (blocks : Fin n → Block), ok = false →
      ∀ i, gateBlocks ok blocks i = fun _ => 0 := by
    rintro ok blocks rfl i
    rfl
  constructor
  · intro prover verifier
    refine ⟨_, runKsBatchCircuit_eq computes prover verifier, ?_, released _, withheld _⟩
    rw [hiroseCommitHost_eq, Option.some_inj]
    simp only [Bool.and_eq_true, decide_eq_true_eq]
    exact And.comm
  · intro prover verifier
    refine ⟨_, runAesEncBatchCircuit_eq computes prover verifier, ?_, released _, withheld _⟩
    exact decide_eq_true_iff

section Samples

def sampleSeed : Block := fun i => UInt8.ofNat (7 * i.val)

/-- Two slots with the counters 2 and 3. -/
def sampleKsIn (keyByte : UInt8) : KsBatchCircuitIn 2 where
  key := fun _ => keyByte
  ctr := fun slot i => if i.val = 15 then UInt8.ofNat (slot.val + 2) else 0
  s := sampleSeed
  r := fun _ => 0xa5
  d := field (hiroseDigest Aes.encrypt (fun _ => 0xa5) sampleSeed) 0 32

/-- Two slots; the counter of the second one is given. -/
def sampleEncIn (keyByte counter : UInt8) : AesEncBatchCircuitIn 2 where
  key := fun _ => keyByte
  ctr := fun slot i => if i.val = 15 then (if slot.val = 0 then 2 else counter) else 0
  pt := fun _ _ => 0x41

theorem sampleBatches_allOrNothing :
    (∃ out, runKsBatchCircuit (netlistOf Aes.encrypt) (sampleKsIn 0x0f) (sampleKsIn 0x36) =
        some out ∧ out.ok = true ∧
      ∀ i, out.maskedKs i = fun j => Aes.encrypt (fun _ => 0x39) ((sampleKsIn 0x0f).ctr i) j ^^^
        Aes.encrypt sampleSeed ((sampleKsIn 0x0f).ctr i) j) ∧
    ∃ out, runAesEncBatchCircuit (netlistOf Aes.encrypt) (sampleEncIn 0x0f 3)
        (sampleEncIn 0x36 4) = some out ∧ out.ok = false ∧ ∀ i, out.ct i = fun _ => 0 := by
  have laws := batchCircuits_allOrNothing (computesAes_netlistOf Aes.encrypt) 2
  constructor
  · obtain ⟨out, run, okIff, released, -⟩ := laws.1 (sampleKsIn 0x0f) (sampleKsIn 0x36)
    have length : (hiroseDigest Aes.encrypt (fun _ => 0xa5) sampleSeed).length = 32 := by
      simp [hiroseDigest]
    have digest : List.ofFn (sampleKsIn 0x36).d =
        hiroseDigest Aes.encrypt (fun _ => 0xa5) sampleSeed := by
      simp only [sampleKsIn]
      rw [ofFn_field _ (by rw [length]), slice_all _ (by rw [length])]
    have ok : out.ok = true := okIff.mpr ⟨fun _ => rfl,
      (hiroseCommitHost_eq Aes.encrypt (fun _ => 0xa5) sampleSeed).trans
        (congrArg some digest.symm)⟩
    exact ⟨out, run, ok, released ok⟩
  · obtain ⟨out, run, okIff, -, withheld⟩ := laws.2 (sampleEncIn 0x0f 3) (sampleEncIn 0x36 4)
    have differ : (sampleEncIn 0x0f 3).ctr 1 ≠ (sampleEncIn 0x36 4).ctr 1 := by
      intro same
      have lastByte := congrFun same 15
      simp [sampleEncIn] at lastByte
    have refused : out.ok = false := by
      rw [Bool.eq_false_iff]
      intro ok
      exact differ (okIff.mp ok 1)
    exact ⟨out, run, refused, withheld refused⟩

end Samples

/-- The input record of the 16-slot circuit. -/
def AesEncBatchIn.toCircuit (input : AesEncBatchIn) : AesEncBatchCircuitIn 16 where
  key := input.key
  ctr := input.ctr
  pt := input.pt

/-- The wires of the 16-slot circuit compute `deriveAesEncBatch`. -/
theorem runAesEncBatchCircuit_toCircuit (computes : ComputesAes raw aes)
    (alice bob : AesEncBatchIn) :
    runAesEncBatchCircuit raw alice.toCircuit bob.toCircuit =
      some { ct := (deriveAesEncBatch aes alice bob).ct
             ok := (deriveAesEncBatch aes alice bob).ok } := by
  have sameCounters : (∀ i, alice.toCircuit.ctr i = bob.toCircuit.ctr i) ↔ alice.ctr = bob.ctr :=
    funext_iff.symm
  rw [runAesEncBatchCircuit_eq computes]
  simp only [sameCounters, deriveAesEncBatch, Option.some_inj, AesEncBatchCircuitOut.mk.injEq,
    and_true]
  funext i j
  simp only [gateBlocks, decide_eq_true_eq]
  rfl

end Laws

end PracticalCrypto.Surf
