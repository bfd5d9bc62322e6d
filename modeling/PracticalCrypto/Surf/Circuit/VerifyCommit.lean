import PracticalCrypto.Surf.Circuit.Gadgets

/-!
# Joint tag verification under a committed key share

This file embeds the circuit `DeriveGCMVerifyCommit` of
`surf-impl/src/2pc/DeriveCircuits.cpp` and the function
`run_gcm_vfy_commit_circuit` of `surf-impl/src/ssl/ThreePartyHandshake.cpp`,
which both parties call with their own input and which decodes the same output.
-/

namespace PracticalCrypto.Surf

open Wires

/-- `GCMVfyCommitCircuitIn`; `rK` matters for the prover and `dK` for the verifier only. -/
structure GcmVfyCommitCircuitIn where
  key : Block
  iv : Block
  tagShare : Block
  serverTag : Block
  rK : Block
  dK : Fin 32 → UInt8

section Model

variable (raw : List Bool → List Bool → List Bool)

/-- `DeriveGCMVerifyCommit`, from the input wires of each party to the revealed wires. -/
def deriveGcmVerifyCommit (bob alice : List Bool) : List Bool :=
  let key := xorWires (slice alice 0 128) (slice bob 0 128)
  let output := xorWires (aes128Encrypt raw key (slice alice 128 128))
    (xorWires (slice alice 256 128) (slice bob 256 128))
  -- the commitment is opened on the wires of ALICE's share that enter the cipher
  let keyCommit := hiroseCommit raw (slice alice 512 128) (slice alice 0 128)
    (blockWires Prover.hiroseConstant)
  let keyOpened := equalsGate keyCommit (slice bob 640 256)
  let wereIvsSame := equalsGate (slice alice 128 128) (slice bob 128 128)
  let wereTagsSame := equalsGate (slice alice 384 128) (slice bob 384 128)
  -- the name is the source's: the wire is 1 if neither party cheated
  let didEitherCheat := wereIvsSame && wereTagsSame
  let tagAndKey := equalsGate output (slice alice 384 128) && keyOpened
  let tagVerify := tagAndKey && didEitherCheat
  List.replicate 8 tagVerify ++ List.replicate 8 didEitherCheat ++ List.replicate 8 keyOpened

/-- The input array of `run_gcm_vfy_commit_circuit`. -/
def GcmVfyCommitCircuitIn.pack (input : GcmVfyCommitCircuitIn) : List UInt8 :=
  [List.ofFn input.key, List.ofFn input.iv, List.ofFn input.tagShare, List.ofFn input.serverTag,
    List.ofFn input.rK, List.ofFn input.dK].flatten

/-- The decoding in `run_gcm_vfy_commit_circuit`, which negates the second output. -/
def GcmVfyOut.unpack (output : List UInt8) : Option GcmVfyOut := do
  let tagPassed ← repeatedBit (output.getD 0 0)
  let neitherCheated ← repeatedBit (output.getD 1 0)
  let keyOpened ← repeatedBit (output.getD 2 0)
  some { tagPassed, cheated := !neitherCheated, keyOpened }

/-- `run_gcm_vfy_commit_circuit`, for the two parties of one circuit. -/
def runGcmVfyCommitCircuit (prover verifier : GcmVfyCommitCircuitIn) : Option GcmVfyOut :=
  GcmVfyOut.unpack (toBytes 3
    (deriveGcmVerifyCommit raw (ofBytes verifier.pack) (ofBytes prover.pack)))

end Model

section Laws

variable {raw : List Bool → List Bool → List Bool} {aes : Block → Block → Block}

theorem GcmVfyCommitCircuitIn.slice_pack (input : GcmVfyCommitCircuitIn) :
    slice (ofBytes input.pack) 0 128 = blockWires input.key ∧
      slice (ofBytes input.pack) 128 128 = blockWires input.iv ∧
      slice (ofBytes input.pack) 256 128 = blockWires input.tagShare ∧
      slice (ofBytes input.pack) 384 128 = blockWires input.serverTag ∧
      slice (ofBytes input.pack) 512 128 = blockWires input.rK ∧
      slice (ofBytes input.pack) 640 256 = ofBytes (List.ofFn input.dK) := by
  have sized : [List.ofFn input.key, List.ofFn input.iv, List.ofFn input.tagShare,
      List.ofFn input.serverTag, List.ofFn input.rK, List.ofFn input.dK].map List.length =
        [16, 16, 16, 16, 16, 32] := by
    simp
  have part := fun k => congrArg ofBytes (slice_flatten sized k)
  simp (disch := decide) only [slice_ofBytes_of_dvd, Nat.reduceDiv]
  exact ⟨part 0, part 1, part 2, part 3, part 4, part 5⟩

theorem unpack_replicate (tagVerify didEitherCheat keyOpened : Bool) :
    GcmVfyOut.unpack (toBytes 3 (List.replicate 8 tagVerify ++ List.replicate 8 didEitherCheat ++
      List.replicate 8 keyOpened)) =
        some { tagPassed := tagVerify, cheated := !didEitherCheat, keyOpened } := by
  simp only [replicate_eq_ofBytes, ← ofBytes_append]
  rw [toBytes_ofBytes (by simp)]
  simp [GcmVfyOut.unpack, repeatedBit_repeatedByte]

/-- The tag that the joint key and the shares of the parties give. -/
def jointTag (aes : Block → Block → Block) (prover verifier : GcmVfyCommitCircuitIn) : Block :=
  fun i => aes (fun j => prover.key j ^^^ verifier.key j) prover.iv i ^^^
    (prover.tagShare i ^^^ verifier.tagShare i)

/-- The outputs of the circuit as comparisons of byte strings. -/
theorem runGcmVfyCommitCircuit_eq (computes : ComputesAes raw aes)
    (prover verifier : GcmVfyCommitCircuitIn) :
    let agree := decide (prover.iv = verifier.iv) && decide (prover.serverTag = verifier.serverTag)
    let opened := decide (hiroseDigest aes prover.rK prover.key = List.ofFn verifier.dK)
    runGcmVfyCommitCircuit raw prover verifier = some
      { tagPassed := (decide (jointTag aes prover verifier = prover.serverTag) && opened) && agree
        cheated := !agree
        keyOpened := opened } := by
  intro agree opened
  obtain ⟨aliceKey, aliceIv, aliceShare, aliceTag, aliceRk, -⟩ := prover.slice_pack
  obtain ⟨bobKey, bobIv, bobShare, bobTag, -, bobDk⟩ := verifier.slice_pack
  have digestLength : (hiroseDigest aes prover.rK prover.key).length =
      (List.ofFn verifier.dK).length := by
    simp [hiroseDigest]
  simp only [runGcmVfyCommitCircuit, deriveGcmVerifyCommit, aliceKey, aliceIv, aliceShare,
    aliceTag, aliceRk, bobKey, bobIv, bobShare, bobTag, bobDk, xorWires_blockWires,
    aes128Encrypt_blockWires computes, hiroseCommit_blockWires computes, equalsGate_blockWires,
    equalsGate_ofBytes digestLength]
  exact unpack_replicate _ _ _

/-- The run succeeds and decides exactly the following of the inputs of both parties. -/
theorem runGcmVfyCommitCircuit_decides (computes : ComputesAes raw aes)
    (prover verifier : GcmVfyCommitCircuitIn) :
    let Opens := Prover.hiroseCommitHost (fun key pt => some (aes key pt)) prover.rK prover.key =
      some (List.ofFn verifier.dK)
    ∃ out, runGcmVfyCommitCircuit raw prover verifier = some out ∧
      (out.cheated = false ↔ prover.iv = verifier.iv ∧ prover.serverTag = verifier.serverTag) ∧
      (out.keyOpened = true ↔ Opens) ∧
      (out.tagPassed = true ↔
        prover.iv = verifier.iv ∧ prover.serverTag = verifier.serverTag ∧ Opens ∧
          jointTag aes prover verifier = prover.serverTag) := by
  intro Opens
  have opens : Opens ↔ hiroseDigest aes prover.rK prover.key = List.ofFn verifier.dK :=
    Option.some_inj
  refine ⟨_, runGcmVfyCommitCircuit_eq computes prover verifier, ?_, ?_, ?_⟩
  · simp only [Bool.not_eq_false', Bool.and_eq_true, decide_eq_true_eq]
  · rw [opens]
    simp only [decide_eq_true_eq]
  · rw [opens]
    simp only [Bool.and_eq_true, decide_eq_true_eq]
    constructor
    · rintro ⟨⟨tag, opened⟩, sameIv, sameTag⟩
      exact ⟨sameIv, sameTag, opened, tag⟩
    · rintro ⟨sameIv, sameTag, opened, tag⟩
      exact ⟨⟨tag, opened⟩, sameIv, sameTag⟩

section Samples

/-- The input of one party with the given key share and the tag and digest of the server. -/
def sampleVfyIn (keyShare serverTag : Block) (dK : Fin 32 → UInt8) : GcmVfyCommitCircuitIn where
  key := keyShare
  iv := fun i => if i.val = 15 then 1 else 0
  tagShare := fun i => keyShare i ^^^ 0x33
  serverTag := serverTag
  rK := fun i => UInt8.ofNat i.val
  dK := dK

def sampleProverShare : Block := fun i => UInt8.ofNat (17 * i.val)

def sampleVerifierShare : Block := fun _ => 0x5a

/-- The tag on the sample shares, whatever tag and digest their inputs carry. -/
def sampleTag : Block :=
  jointTag Aes.encrypt (sampleVfyIn sampleProverShare 0 0) (sampleVfyIn sampleVerifierShare 0 0)

def sampleDk : Fin 32 → UInt8 :=
  field (hiroseDigest Aes.encrypt (fun i => UInt8.ofNat i.val) sampleProverShare) 0 32

theorem sampleShares_decide :
    ∃ out, runGcmVfyCommitCircuit (netlistOf Aes.encrypt)
        (sampleVfyIn sampleProverShare sampleTag 0)
        (sampleVfyIn sampleVerifierShare sampleTag sampleDk) = some out ∧
      out.cheated = false ∧ out.keyOpened = true ∧ out.tagPassed = true := by
  obtain ⟨out, run, cheated, opened, passed⟩ := runGcmVfyCommitCircuit_decides
    (computesAes_netlistOf Aes.encrypt) (sampleVfyIn sampleProverShare sampleTag 0)
    (sampleVfyIn sampleVerifierShare sampleTag sampleDk)
  have digest : List.ofFn sampleDk =
      hiroseDigest Aes.encrypt (fun i => UInt8.ofNat i.val) sampleProverShare := by
    have length : (hiroseDigest Aes.encrypt (fun i => UInt8.ofNat i.val)
        sampleProverShare).length = 32 := by
      simp [hiroseDigest]
    rw [sampleDk, ofFn_field _ (by rw [length]), slice_all _ (by rw [length])]
  have opens := (hiroseCommitHost_eq Aes.encrypt (fun i => UInt8.ofNat i.val)
    sampleProverShare).trans (congrArg some digest.symm)
  exact ⟨out, run, cheated.mpr ⟨rfl, rfl⟩, opened.mpr opens, passed.mpr ⟨rfl, rfl, opens, rfl⟩⟩

end Samples

end Laws

end PracticalCrypto.Surf
