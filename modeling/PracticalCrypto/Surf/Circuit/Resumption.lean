import PracticalCrypto.Surf.Circuit.KeySchedule
import PracticalCrypto.Surf.Server.Connection

/-!
# Resumption secrets and the PSK binder

This file embeds the circuits `ProduceCombinedRMS`, `ProduceCombinedPSK` and
`ProduceBinderCircuit` of `surf-impl/src/2pc/DeriveCircuits.cpp` and the functions
`run_resumption_circuit`, `run_psk_circuit` (with its variants for the widths of a
ticket nonce) and `run_binder_circuit` that both parties run them with.

The first two circuits differ in a label and in the width of a context. Each joins
the halves of a secret, expands it, and reveals the halves of the result under a
mask of the party that keeps them. So the output of one is the input of the next,
and the binder circuit joins the halves of the PSK for the last time.
-/

namespace PracticalCrypto.Surf

open Wires KeySchedule

section Circuits

/-- What `ProduceCombinedRMS` and `ProduceCombinedPSK` have in common: BOB's wires after its share
of the secret are not read up to its mask. -/
def produceExpandedHalves (hkdf : HkdfWires) (derivation : TypeOfDerivation) (contextBits : ℕ)
    (bob alice : List Bool) : List Bool :=
  let secret := slice alice 0 128 ++ slice bob 0 128
  let context := slice alice 128 contextBits
  let bobMask := slice bob (128 + contextBits) 128
  let aliceMask := slice alice (128 + contextBits) 128
  let expanded := hkdf.expandLabel secret derivation.getTag context 32
  xorWires aliceMask (slice expanded 0 128) ++ xorWires bobMask (slice expanded 128 128)

/-- `ProduceCombinedRMS`; the context is the transcript hash. -/
def produceCombinedRms (hkdf : HkdfWires) : List Bool → List Bool → List Bool :=
  produceExpandedHalves hkdf .rms 256

/-- `ProduceCombinedPSK`; the context is the ticket nonce. -/
def produceCombinedPsk (hkdf : HkdfWires) (nonceBytes : ℕ) : List Bool → List Bool → List Bool :=
  produceExpandedHalves hkdf .psk (nonceBytes * 8)

/-- `ProduceBinderCircuit`; the zero key and the hash of the empty string are public wires. -/
def produceBinderCircuit (hkdf : HkdfWires) (bob alice : List Bool) : List Bool :=
  let psk := slice alice 0 128 ++ slice bob 0 128
  let chHash := slice alice 128 256
  let es := hkdf.extract (List.replicate 256 false) psk
  let binderKey := hkdf.expandLabel es "res binder" (ofBytes emptyHash) 32
  let finishedKey := hkdf.expandLabel binderKey TypeOfDerivation.fkS.getTag [] 32
  hkdf.extract finishedKey chHash

end Circuits

section Runs

/-- `ResumptionCircuitOut` and `PskCircuitOut`. -/
structure ExpandedHalf where
  xorMask : Block
  share : Block

/-- The input array of `run_resumption_circuit_internal` and of `run_psk_circuit_internal`; the
verifier holds no context. -/
def packHalfInput {size : ℕ} (verifier : Bool) (share : Block) (context : Fin size → UInt8)
    (mask : Block) : List UInt8 :=
  [List.ofFn share, if verifier then List.replicate size 0 else List.ofFn context,
    List.ofFn mask].flatten

/-- The prover keeps the low half of the output array, the verifier the high one. -/
def unpackHalf (verifier : Bool) (mask : Block) (out : List UInt8) : ExpandedHalf where
  xorMask := mask
  share i := field out (if verifier then 16 else 0) 16 i ^^^ mask i

/-- Both sides of a run of `circuit`. -/
def runHalvesCircuit {size : ℕ} (circuit : List Bool → List Bool → List Bool)
    (proverShare verifierShare : Block) (context : Fin size → UInt8)
    (proverMask verifierMask : Block) : ExpandedHalf × ExpandedHalf :=
  let out := toBytes 32 (circuit
    (ofBytes (packHalfInput true verifierShare (fun _ : Fin size => 0) verifierMask))
    (ofBytes (packHalfInput false proverShare context proverMask)))
  (unpackHalf false proverMask out, unpackHalf true verifierMask out)

/-- `run_resumption_circuit` on both sides of one circuit. -/
def runResumptionCircuit (hkdf : HkdfWires) (proverMs verifierMs : Block) (hash : Fin 32 → UInt8)
    (proverMask verifierMask : Block) : ExpandedHalf × ExpandedHalf :=
  runHalvesCircuit (produceCombinedRms hkdf) proverMs verifierMs hash proverMask verifierMask

/-- The widths of a ticket nonce that there are circuits for. -/
inductive NonceWidth where
  | zero
  | one
  | eight
deriving Repr, DecidableEq

def NonceWidth.bytes : NonceWidth → ℕ
  | .zero => 0
  | .one => 1
  | .eight => 8

/-- The choice of `derive_psk_keys`, which refuses nonces of other lengths. -/
def NonceWidth.ofLength : ℕ → Option NonceWidth
  | 0 => some .zero
  | 1 => some .one
  | 8 => some .eight
  | _ => none

/-- The header that announces the width to the verifier. -/
def NonceWidth.header : NonceWidth → MessageHeader
  | .zero => .derivePsk0
  | .one => .derivePsk
  | .eight => .derivePsk8

def NonceWidth.circuit : NonceWidth → Circuit
  | .zero => .psk0
  | .one => .psk
  | .eight => .psk8

/-- `run_psk_circuit_0`, `run_psk_circuit` and `run_psk_circuit_8` on both sides of one circuit. -/
def runPskCircuit (hkdf : HkdfWires) (width : NonceWidth) (proverRms verifierRms : Block)
    (ticketNonce : Fin width.bytes → UInt8) (proverMask verifierMask : Block) :
    ExpandedHalf × ExpandedHalf :=
  runHalvesCircuit (produceCombinedPsk hkdf width.bytes) proverRms verifierRms ticketNonce
    proverMask verifierMask

/-- The input array of `run_binder_circuit_internal`. -/
def packBinderInput (verifier : Bool) (pskShare : Block) (chHash : Fin 32 → UInt8) : List UInt8 :=
  [List.ofFn pskShare, if verifier then List.replicate 32 0 else List.ofFn chHash].flatten

/-- `run_binder_circuit` on both sides of one circuit; the output is public. -/
def runBinderCircuit (hkdf : HkdfWires) (proverPsk verifierPsk : Block) (chHash : Fin 32 → UInt8) :
    (Fin 32 → UInt8) × (Fin 32 → UInt8) :=
  let out := toBytes 32 (produceBinderCircuit hkdf
    (ofBytes (packBinderInput true verifierPsk fun _ => 0))
    (ofBytes (packBinderInput false proverPsk chHash)))
  (field out 0 32, field out 0 32)

end Runs

section Widths

/-- A width is chosen exactly for the nonces that its circuit takes. -/
theorem NonceWidth.ofLength_eq_some {length : ℕ} {width : NonceWidth} :
    ofLength length = some width ↔ width.bytes = length := by
  constructor
  · intro chosen
    unfold ofLength at chosen
    split at chosen <;> cases chosen <;> rfl
  · rintro rfl
    cases width <;> rfl

theorem NonceWidth.pskCircuitOf_header (width : NonceWidth) :
    Server.pskCircuitOf width.header = some width.circuit := by
  cases width <;> rfl

end Widths

section Halves

variable {hkdf : HkdfWires} {size : ℕ} {proverShare verifierShare : Block}
  {context : Fin size → UInt8} {proverMask verifierMask : Block}

theorem slice_packHalfInput (verifier : Bool) (share : Block) (context : Fin size → UInt8)
    (mask : Block) :
    let input := packHalfInput verifier share context mask
    slice input 0 16 = List.ofFn share ∧
      slice input 16 size = (if verifier then List.replicate size 0 else List.ofFn context) ∧
      slice input (16 + size) 16 = List.ofFn mask := by
  have sized : [List.ofFn share, if verifier then List.replicate size 0 else List.ofFn context,
      List.ofFn mask].map List.length = [16, size, 16] := by
    simp only [List.map_cons, List.map_nil, List.length_ofFn, length_proverPart]
  exact ⟨slice_flatten sized 0, slice_flatten sized 1, slice_flatten sized 2⟩

/-- The parts of the bytes that the circuit reveals of a secret. -/
def revealedHalves (aliceMask bobMask : Block) (expanded : List UInt8) : List (List UInt8) :=
  [xorBytes (List.ofFn aliceMask) (slice expanded 0 16),
    xorBytes (List.ofFn bobMask) (slice expanded 16 16)]

theorem length_revealedHalves (aliceMask bobMask : Block) {expanded : List UInt8}
    (expandedLength : expanded.length = 32) :
    (revealedHalves aliceMask bobMask expanded).map List.length = [16, 16] := by
  simp [revealedHalves, length_xorBytes, length_slice, expandedLength]

theorem produceExpandedHalves_ofBytes (computes : hkdf.Computes) (derivation : TypeOfDerivation)
    (short : size ≤ 255) :
    produceExpandedHalves hkdf derivation (size * 8)
        (ofBytes (packHalfInput true verifierShare (fun _ : Fin size => 0) verifierMask))
        (ofBytes (packHalfInput false proverShare context proverMask)) =
      ofBytes (revealedHalves proverMask verifierMask
        (KeySchedule.expandLabel (List.ofFn proverShare ++ List.ofFn verifierShare)
          derivation.getTag (List.ofFn context) 32)).flatten := by
  obtain ⟨bobShare, -, bobMask⟩ :=
    slice_packHalfInput true verifierShare (fun _ : Fin size => 0) verifierMask
  obtain ⟨aliceShare, aliceContext, aliceMask⟩ :=
    slice_packHalfInput false proverShare context proverMask
  have shortLabel : derivation.getTag.length ≤ 249 := by
    cases derivation <;> decide
  have maskOffset : (128 + size * 8) / 8 = 16 + size := by omega
  have contextBytes : size * 8 / 8 = size := by omega
  simp only [produceExpandedHalves]
  simp (disch := omega) only [slice_ofBytes_of_dvd, Nat.reduceDiv, maskOffset, contextBytes,
    bobShare, bobMask, aliceShare, aliceContext, aliceMask, ← ofBytes_append, Bool.false_eq_true,
    if_false]
  rw [computes.expandLabel (by simp) shortLabel (by simpa using short) le_rfl]
  simp (disch := decide) only [slice_ofBytes_of_dvd, Nat.reduceDiv, xorWires_ofBytes,
    ← ofBytes_append, revealedHalves, List.flatten_cons, List.flatten_nil, List.append_nil]

/-- The shares that the parties keep are the halves of the expanded secret. -/
theorem runHalvesCircuit_shares (computes : hkdf.Computes) (derivation : TypeOfDerivation)
    (short : size ≤ 255) :
    let out := runHalvesCircuit (produceExpandedHalves hkdf derivation (size * 8)) proverShare
      verifierShare context proverMask verifierMask
    List.ofFn out.1.share ++ List.ofFn out.2.share =
      KeySchedule.expandLabel (List.ofFn proverShare ++ List.ofFn verifierShare)
        derivation.getTag (List.ofFn context) 32 := by
  intro out
  have expandedLength := length_expandLabel (List.ofFn proverShare ++ List.ofFn verifierShare)
    derivation.getTag (List.ofFn context) 32
  have sized := length_revealedHalves proverMask verifierMask expandedLength
  have revealedLength : (revealedHalves proverMask verifierMask (KeySchedule.expandLabel
      (List.ofFn proverShare ++ List.ofFn verifierShare) derivation.getTag (List.ofFn context)
      32)).flatten.length = 32 :=
    length_flatten_of_sized sized
  simp only [out, runHalvesCircuit, unpackHalf, Bool.false_eq_true, if_true, if_false,
    produceExpandedHalves_ofBytes computes derivation short, toBytes_ofBytes revealedLength]
  exact append_unmasked proverMask verifierMask (by omega) expandedLength (slice_flatten sized 0)
    (slice_flatten sized 1)

end Halves

section Binder

variable {hkdf : HkdfWires} {proverPsk verifierPsk : Block} {chHash : Fin 32 → UInt8}

theorem slice_packBinderInput (verifier : Bool) (pskShare : Block) (chHash : Fin 32 → UInt8) :
    let input := packBinderInput verifier pskShare chHash
    slice input 0 16 = List.ofFn pskShare ∧
      slice input 16 32 = if verifier then List.replicate 32 0 else List.ofFn chHash := by
  have sized : [List.ofFn pskShare,
      if verifier then List.replicate 32 0 else List.ofFn chHash].map List.length = [16, 32] := by
    simp only [List.map_cons, List.map_nil, List.length_ofFn, length_proverPart]
  exact ⟨slice_flatten sized 0, slice_flatten sized 1⟩

theorem produceBinderCircuit_ofBytes (computes : hkdf.Computes) :
    produceBinderCircuit hkdf (ofBytes (packBinderInput true verifierPsk fun _ => 0))
        (ofBytes (packBinderInput false proverPsk chHash)) =
      ofBytes (pskBinder (List.ofFn proverPsk ++ List.ofFn verifierPsk) (List.ofFn chHash)) := by
  obtain ⟨bobPsk, -⟩ := slice_packBinderInput true verifierPsk fun _ => 0
  obtain ⟨alicePsk, aliceHash⟩ := slice_packBinderInput false proverPsk chHash
  have contextFree : ([] : List Bool) = ofBytes [] := rfl
  have zeroKey : List.replicate 256 false = ofBytes (List.replicate 32 0) :=
    (ofBytes_replicate_zero 32).symm
  simp only [produceBinderCircuit, TypeOfDerivation.getTag]
  simp (disch := omega) only [slice_ofBytes_of_dvd, Nat.reduceDiv, bobPsk, alicePsk, aliceHash,
    ← ofBytes_append, Bool.false_eq_true, if_false, zeroKey]
  rw [contextFree, computes.extract _ _ (by simp) (by simp),
    computes.expandLabel (Hkdf.length_extract _ _) (by decide) (by decide) le_rfl,
    computes.expandLabel (length_expandLabel _ _ _ _) (by decide) (by decide) le_rfl,
    computes.extract _ _ (length_expandLabel _ _ _ _) (by simp), ← sha256_nil]
  rfl

theorem runBinderCircuit_binder (computes : hkdf.Computes) :
    let out := runBinderCircuit hkdf proverPsk verifierPsk chHash
    let binder := pskBinder (List.ofFn proverPsk ++ List.ofFn verifierPsk) (List.ofFn chHash)
    List.ofFn out.1 = binder ∧ List.ofFn out.2 = binder := by
  intro out binder
  have binderLength : binder.length = 32 := Hkdf.length_sha256 _
  have revealed : toBytes 32 (produceBinderCircuit hkdf
      (ofBytes (packBinderInput true verifierPsk fun _ => 0))
      (ofBytes (packBinderInput false proverPsk chHash))) = binder := by
    rw [produceBinderCircuit_ofBytes computes]
    exact toBytes_ofBytes binderLength
  have copied : List.ofFn (field binder 0 32) = binder := by
    rw [ofFn_field _ (by omega)]
    exact slice_all binder binderLength.le
  simp only [out, runBinderCircuit, revealed]
  exact ⟨copied, copied⟩

end Binder

section Resumption

variable {hkdf : HkdfWires}

/--
The halves that the parties hold of the resumption master secret and of the PSK are those of
RFC 8446, and so is the binder that they compute from the halves of the PSK.
-/
theorem resumption_derivations (computes : hkdf.Computes) (proverMs verifierMs : Block)
    (hash : Fin 32 → UInt8) (width : NonceWidth) (ticketNonce : Fin width.bytes → UInt8)
    (proverMask verifierMask proverPskMask verifierPskMask : Block) (chHash : Fin 32 → UInt8) :
    let rms := runResumptionCircuit hkdf proverMs verifierMs hash proverMask verifierMask
    let psk := runPskCircuit hkdf width rms.1.share rms.2.share ticketNonce proverPskMask
      verifierPskMask
    let binder := runBinderCircuit hkdf psk.1.share psk.2.share chHash
    let masterSecret := List.ofFn proverMs ++ List.ofFn verifierMs
    let derivedRms := resumptionMasterSecret masterSecret (List.ofFn hash)
    let derivedPsk := ticketPsk derivedRms (List.ofFn ticketNonce)
    List.ofFn rms.1.share ++ List.ofFn rms.2.share = derivedRms ∧
      List.ofFn psk.1.share ++ List.ofFn psk.2.share = derivedPsk ∧
      List.ofFn binder.1 = pskBinder derivedPsk (List.ofFn chHash) ∧
      List.ofFn binder.2 = pskBinder derivedPsk (List.ofFn chHash) := by
  intro rms psk binder masterSecret derivedRms derivedPsk
  have shortNonce : width.bytes ≤ 255 := by
    cases width <;> decide
  have rmsShares : List.ofFn rms.1.share ++ List.ofFn rms.2.share = derivedRms :=
    runHalvesCircuit_shares computes .rms (by decide)
  have pskShares : List.ofFn psk.1.share ++ List.ofFn psk.2.share = derivedPsk := by
    have expanded : List.ofFn psk.1.share ++ List.ofFn psk.2.share =
        ticketPsk (List.ofFn rms.1.share ++ List.ofFn rms.2.share) (List.ofFn ticketNonce) :=
      runHalvesCircuit_shares computes .psk shortNonce
    rwa [rmsShares] at expanded
  have binders : List.ofFn binder.1 = pskBinder (List.ofFn psk.1.share ++ List.ofFn psk.2.share) _ ∧
      List.ofFn binder.2 = pskBinder (List.ofFn psk.1.share ++ List.ofFn psk.2.share) _ :=
    runBinderCircuit_binder computes
  rw [pskShares] at binders
  exact ⟨rmsShares, pskShares, binders⟩

theorem resumption_derivations_eight_bytes :
    let rms := runResumptionCircuit .onBytes (fun _ => 1) (fun _ => 2) (fun _ => 3) (fun _ => 4)
      (fun _ => 5)
    let psk := runPskCircuit .onBytes .eight rms.1.share rms.2.share (fun _ => 6) (fun _ => 7)
      (fun _ => 8)
    List.ofFn (runBinderCircuit .onBytes psk.1.share psk.2.share fun _ => 9).1 =
      pskBinder (ticketPsk (resumptionMasterSecret
        (List.ofFn (fun _ : Fin 16 => 1) ++ List.ofFn (fun _ : Fin 16 => 2))
        (List.ofFn fun _ : Fin 32 => 3)) (List.ofFn fun _ : Fin 8 => 6))
        (List.ofFn fun _ : Fin 32 => 9) :=
  (resumption_derivations HkdfWires.computes_onBytes (fun _ => 1) (fun _ => 2) (fun _ => 3) .eight
    (fun _ => 6) (fun _ => 4) (fun _ => 5) (fun _ => 7) (fun _ => 8) (fun _ => 9)).2.2.1

end Resumption

end PracticalCrypto.Surf
