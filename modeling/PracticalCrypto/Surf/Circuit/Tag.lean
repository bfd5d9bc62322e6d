import PracticalCrypto.Surf.Circuit.Batch

/-!
# The tag of a joint encryption

This file embeds the circuit `DeriveGCMTag` of `surf-impl/src/2pc/DeriveCircuits.cpp`
and the function `run_gcm_tag_circuit` of `ssl/ThreePartyHandshake.cpp`.
`deriveGcmTag` states what the circuit is for, on the bytes of the two parties.
-/

namespace PracticalCrypto.Surf

open Wires

section Model

/-- `DeriveGCMTag`, from the input wires of each party to the revealed wires. -/
def deriveGcmTagWires (raw : List Bool → List Bool → List Bool) (bob alice : List Bool) :
    List Bool :=
  let key := xorWires (slice alice 0 128) (slice bob 0 128)
  let output := aes128Encrypt raw key (slice alice 128 128)
  let output := xorWires output (xorWires (slice alice 256 128) (slice bob 256 128))
  let wereSame := equalsGate (slice alice 128 128) (slice bob 128 128)
  let output := output.map (wereSame && ·)
  -- the mask is added after the gate, so a disagreement reveals the mask alone
  List.replicate 8 wereSame ++ xorWires output (slice alice 384 128)

/-- The input array of `run_gcm_tag_circuit`. -/
def GcmTagIn.pack (input : GcmTagIn) : List UInt8 :=
  [List.ofFn input.keyShare, List.ofFn input.iv, List.ofFn input.tagShare,
    List.ofFn input.maskOrUnused].flatten

def GcmTagOut.unpack (output : List UInt8) : Option GcmTagOut := do
  let same ← repeatedBit (output.getD 0 0)
  some { cheated := !same, tag := field output 1 16 }

/-- `run_gcm_tag_circuit`, for the two parties of one circuit. -/
def runGcmTagCircuit (raw : List Bool → List Bool → List Bool) (prover verifier : GcmTagIn) :
    Option GcmTagOut :=
  GcmTagOut.unpack (toBytes 17
    (deriveGcmTagWires raw (ofBytes verifier.pack) (ofBytes prover.pack)))

end Model

/-- The tag of the joint key and the hash shares, under the prover's mask. -/
def deriveGcmTag (aes : Block → Block → Block) (alice bob : GcmTagIn) : GcmTagOut where
  cheated := decide (alice.iv ≠ bob.iv)
  tag := fun i =>
    (if alice.iv = bob.iv then
      aes (fun j => alice.keyShare j ^^^ bob.keyShare j) alice.iv i ^^^
        (alice.tagShare i ^^^ bob.tagShare i)
    else 0) ^^^ alice.maskOrUnused i

section Laws

variable {raw : List Bool → List Bool → List Bool} {aes : Block → Block → Block}

theorem GcmTagIn.slice_pack (input : GcmTagIn) :
    slice (ofBytes input.pack) 0 128 = blockWires input.keyShare ∧
      slice (ofBytes input.pack) 128 128 = blockWires input.iv ∧
      slice (ofBytes input.pack) 256 128 = blockWires input.tagShare ∧
      slice (ofBytes input.pack) 384 128 = blockWires input.maskOrUnused := by
  have sized : [List.ofFn input.keyShare, List.ofFn input.iv, List.ofFn input.tagShare,
      List.ofFn input.maskOrUnused].map List.length = [16, 16, 16, 16] := by
    simp
  have part := slice_flatten sized
  exact ⟨slice_ofBytes_eq (part 0) rfl rfl, slice_ofBytes_eq (part 1) rfl rfl,
    slice_ofBytes_eq (part 2) rfl rfl, slice_ofBytes_eq (part 3) rfl rfl⟩

theorem map_and_blockWires (ok : Bool) (block : Block) :
    (blockWires block).map (ok && ·) = blockWires fun i => if ok then block i else 0 := by
  simp only [Bool.and_comm ok]
  rw [blockWires, map_and_ofBytes, List.map_ofFn]
  rfl

theorem unpack_tag (same : Bool) (tag : Block) :
    GcmTagOut.unpack (toBytes 17 (List.replicate 8 same ++ blockWires tag)) =
      some { cheated := !same, tag } := by
  have bytes : field (repeatedByte same :: List.ofFn tag) 1 16 = tag := by
    apply List.ofFn_injective
    rw [ofFn_field _ (by simp)]
    simp [slice]
  rw [replicate_eq_ofBytes, blockWires, ← ofBytes_append, toBytes_ofBytes (by simp),
    GcmTagOut.unpack, List.singleton_append, List.getD_cons_zero, repeatedBit_repeatedByte, bytes]
  rfl

theorem runGcmTagCircuit_eq (computes : ComputesAes raw aes) (prover verifier : GcmTagIn) :
    runGcmTagCircuit raw prover verifier = some (deriveGcmTag aes prover verifier) := by
  obtain ⟨aliceKey, aliceIv, aliceShare, aliceMask⟩ := prover.slice_pack
  obtain ⟨bobKey, bobIv, bobShare, -⟩ := verifier.slice_pack
  simp only [runGcmTagCircuit, deriveGcmTagWires, aliceKey, aliceIv, aliceShare, aliceMask, bobKey,
    bobIv, bobShare, xorWires_blockWires, aes128Encrypt_blockWires computes, equalsGate_blockWires,
    map_and_blockWires, unpack_tag]
  simp only [deriveGcmTag, decide_not, decide_eq_true_eq]

end Laws

end PracticalCrypto.Surf
