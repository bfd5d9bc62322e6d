import PracticalCrypto.Surf.Circuit.KeySchedule
import PracticalCrypto.Surf.Prover.Release
import PracticalCrypto.Surf.Server.Attestation

/-!
# Traffic keys and key updates

This file embeds the circuits `ProduceCombinedTrafficCircuits` and
`DeriveRotateKey` of `surf-impl/src/2pc/DeriveCircuits.cpp`, the functions
`run_traffic_circuit` and `run_rotate_circuit` that both parties run them with,
and the installation of their outputs by `derive_traffic_keys` and
`rotate_traffic_keys` on the side of the prover and by `Server::derive_ts` and
`Server::rotate_key_op` on the side of the verifier.

The prover (ALICE) keeps the low half of each traffic secret and its mask as the
share of a key, the verifier (BOB) the high half and the masked key. The invariant
`JointKeys.Share` says that the two states together are the keys of RFC 8446 for
a traffic secret. A rotation moves it to the next secret of its direction and
leaves the other direction as it is.
-/

namespace PracticalCrypto.Surf

open Wires KeySchedule

section Circuits

/-- `ProduceCombinedTrafficCircuits`, from the input wires of each party to the revealed wires. -/
def produceCombinedTrafficCircuits (hkdf : HkdfWires) (bob alice : List Bool) : List Bool :=
  let ms := slice alice 0 128 ++ slice bob 0 128
  let h3 := slice alice 128 256
  let bobMask := slice bob 384 512
  let aliceMask := slice alice 384 512
  let derivedCats := hkdf.expandLabel ms TypeOfDerivation.cats.getTag h3 32
  let derivedSats := hkdf.expandLabel ms TypeOfDerivation.sats.getTag h3 32
  let cts := hkdf.expandLabel derivedCats TypeOfDerivation.clientTrafficKey.getTag [] 16
  let ctiv := hkdf.expandLabel derivedCats TypeOfDerivation.clientTrafficIv.getTag [] 12
  let sts := hkdf.expandLabel derivedSats TypeOfDerivation.serverTrafficKey.getTag [] 16
  let stiv := hkdf.expandLabel derivedSats TypeOfDerivation.serverTrafficIv.getTag [] 12
  xorWires (slice aliceMask 0 128) cts ++ ctiv ++ xorWires (slice aliceMask 128 128) sts ++ stiv ++
    (xorWires (slice aliceMask 256 128) (slice derivedCats 0 128) ++
      xorWires (slice bobMask 256 128) (slice derivedCats 128 128)) ++
    (xorWires (slice aliceMask 384 128) (slice derivedSats 0 128) ++
      xorWires (slice bobMask 384 128) (slice derivedSats 128 128))

/-- `DeriveRotateKey`. -/
def deriveRotateKey (hkdf : HkdfWires) (bob alice : List Bool) : List Bool :=
  let secret := slice alice 0 128 ++ slice bob 0 128
  let next := hkdf.expandLabel secret "traffic upd" [] 32
  let key := hkdf.expandLabel next TypeOfDerivation.serverTrafficKey.getTag [] 16
  let iv := hkdf.expandLabel next TypeOfDerivation.serverTrafficIv.getTag [] 12
  xorWires (slice alice 128 128) (slice next 0 128) ++
    xorWires (slice bob 128 128) (slice next 128 128) ++
    xorWires (slice alice 256 128) key ++ iv

end Circuits

section Runs

/-- The input array of `run_traffic_circuit_internal`. -/
def packTrafficInput (verifier : Bool) (msShare : Block) (hash : Fin 32 → UInt8)
    (mask : Fin 64 → UInt8) : List UInt8 :=
  [List.ofFn msShare, if verifier then List.replicate 32 0 else List.ofFn hash,
    List.ofFn mask].flatten

/-- What `run_traffic_circuit_internal` reads from the output array and from its mask. -/
def unpackTrafficOutput (verifier : Bool) (mask : Fin 64 → UInt8) (out : List UInt8) :
    TrafficKeyShares :=
  let half := if verifier then 16 else 0
  { clientIv := field out 16 12
    serverIv := field out 44 12
    clientKeyShare := if verifier then field out 0 16 else maskPart mask 0
    serverKeyShare := if verifier then field out 28 16 else maskPart mask 1
    catsShare := fun i => field out (56 + half) 16 i ^^^ maskPart mask 2 i
    satsShare := fun i => field out (88 + half) 16 i ^^^ maskPart mask 3 i }

/-- `run_traffic_circuit` on both sides of one circuit. -/
def runTrafficCircuit (hkdf : HkdfWires) (proverMs verifierMs : Block) (hash : Fin 32 → UInt8)
    (proverMask verifierMask : Fin 64 → UInt8) : TrafficKeyShares × TrafficKeyShares :=
  let out := toBytes 120 (produceCombinedTrafficCircuits hkdf
    (ofBytes (packTrafficInput true verifierMs (fun _ => 0) verifierMask))
    (ofBytes (packTrafficInput false proverMs hash proverMask)))
  (unpackTrafficOutput false proverMask out, unpackTrafficOutput true verifierMask out)

/-- The input array of `run_rotate_circuit_internal`; the key mask is ALICE's only. -/
def packRotateInput (verifier : Bool) (secretShare : Block) (mask : Fin 32 → UInt8) :
    List UInt8 :=
  [List.ofFn secretShare, List.ofFn (maskPart mask 0),
    if verifier then List.replicate 16 0 else List.ofFn (maskPart mask 1)].flatten

def unpackRotateOutput (verifier : Bool) (mask : Fin 32 → UInt8) (out : List UInt8) :
    RotateCircuitOut :=
  let half := if verifier then 16 else 0
  { nextShare := fun i => field out half 16 i ^^^ maskPart mask 0 i
    keyShare := if verifier then field out 32 16 else maskPart mask 1
    iv := field out 48 12 }

/-- `run_rotate_circuit` on both sides of one circuit. -/
def runRotateCircuit (hkdf : HkdfWires) (proverShare verifierShare : Block)
    (proverMask verifierMask : Fin 32 → UInt8) : RotateCircuitOut × RotateCircuitOut :=
  let out := toBytes 60 (deriveRotateKey hkdf
    (ofBytes (packRotateInput true verifierShare verifierMask))
    (ofBytes (packRotateInput false proverShare proverMask)))
  (unpackRotateOutput false proverMask out, unpackRotateOutput true verifierMask out)

end Runs

section State

/-- The members of the prover's `SSL` that hold traffic keys. -/
structure ProverKeys where
  catsShare : Block
  satsShare : Block
  clientKeyShare : Block
  serverKeyShare : Block
  clientIv : Block
  serverIv : Block

/-- `std::copy(iv.cbegin(), iv.cend(), stored.begin() + 4)`. -/
def storeIv (stored : Block) (iv : Iv) : Block := fun i =>
  if late : 4 ≤ i.val then iv (Fin.subNat 4 i late) else stored i

/-- `derive_traffic_keys`: the output of the traffic circuit replaces the keys. -/
def ProverKeys.install (keys : ProverKeys) (out : TrafficKeyShares) : ProverKeys where
  catsShare := out.catsShare
  satsShare := out.satsShare
  clientKeyShare := out.clientKeyShare
  serverKeyShare := out.serverKeyShare
  clientIv := storeIv keys.clientIv out.clientIv
  serverIv := storeIv keys.serverIv out.serverIv

/-- What a party holds of the keys of one direction. -/
structure TrafficShare where
  secret : Block
  key : Block
  iv : Iv

def ProverKeys.share (keys : ProverKeys) : Direction → TrafficShare
  | .client => ⟨keys.catsShare, keys.clientKeyShare, Prover.staticIv keys.clientIv⟩
  | .server => ⟨keys.satsShare, keys.serverKeyShare, Prover.staticIv keys.serverIv⟩

/-- The keys that `rotate_traffic_keys` leaves; `evp_aead_seal` is the client direction. -/
def ProverKeys.rotate (keys : ProverKeys) (out : RotateCircuitOut) : Direction → ProverKeys
  | .client =>
      { keys with
        catsShare := out.nextShare
        clientKeyShare := out.keyShare
        clientIv := storeIv keys.clientIv out.iv }
  | .server =>
      { keys with
        satsShare := out.nextShare
        serverKeyShare := out.keyShare
        serverIv := storeIv keys.serverIv out.iv }

def TrafficKeyShares.share (keys : TrafficKeyShares) : Direction → TrafficShare
  | .client => ⟨keys.catsShare, keys.clientKeyShare, keys.clientIv⟩
  | .server => ⟨keys.satsShare, keys.serverKeyShare, keys.serverIv⟩

def RotateCircuitOut.share (out : RotateCircuitOut) : TrafficShare :=
  ⟨out.nextShare, out.keyShare, out.iv⟩

/-- The keys that `rotate_key_op` leaves. -/
def TrafficKeyShares.rotate (keys : TrafficKeyShares) (out : RotateCircuitOut) :
    Direction → TrafficKeyShares
  | .client =>
      { keys with catsShare := out.nextShare, clientKeyShare := out.keyShare, clientIv := out.iv }
  | .server =>
      { keys with satsShare := out.nextShare, serverKeyShare := out.keyShare, serverIv := out.iv }

structure JointKeys where
  prover : ProverKeys
  verifier : TrafficKeyShares

/-- A rotation that both parties execute, with the masks they draw for it. -/
structure Rotation where
  direction : Direction
  proverMask : Fin 32 → UInt8
  verifierMask : Fin 32 → UInt8

/-- One rotation on both sides. -/
def JointKeys.rotate (hkdf : HkdfWires) (keys : JointKeys) (rotation : Rotation) : JointKeys :=
  let out := runRotateCircuit hkdf (keys.prover.share rotation.direction).secret
    (keys.verifier.share rotation.direction).secret rotation.proverMask rotation.verifierMask
  { prover := keys.prover.rotate out.1 rotation.direction
    verifier := keys.verifier.rotate out.2 rotation.direction }

/-- The rotations executed one after the other. -/
def JointKeys.rotateAll (hkdf : HkdfWires) (keys : JointKeys) (rotations : List Rotation) :
    JointKeys :=
  rotations.foldl (JointKeys.rotate hkdf) keys

end State

/-- Two shares are the keys of the traffic secret `secret`. -/
structure TrafficShare.Recombine (prover verifier : TrafficShare) (secret : List UInt8) :
    Prop where
  halves : List.ofFn prover.secret ++ List.ofFn verifier.secret = secret
  key : List.ofFn (fun i => prover.key i ^^^ verifier.key i) = trafficKey secret
  sameIv : prover.iv = verifier.iv
  iv : List.ofFn verifier.iv = trafficIv secret

section Ivs

theorem staticIv_storeIv (stored : Block) (iv : Iv) :
    Prover.staticIv (storeIv stored iv) = iv := by
  funext i
  simp [Prover.staticIv, storeIv]

theorem ProverKeys.share_install (keys : ProverKeys) (out : TrafficKeyShares)
    (direction : Direction) : (keys.install out).share direction = out.share direction := by
  cases direction <;>
    simp only [ProverKeys.install, ProverKeys.share, TrafficKeyShares.share, staticIv_storeIv]

end Ivs

section Rotation

variable {hkdf : HkdfWires} {proverShare verifierShare : Block}
  {proverMask verifierMask : Fin 32 → UInt8}

/-- The parts of the bytes that the rotation circuit reveals for the new secret `next`. -/
def revealedRotation (aliceMask bobMask : Fin 32 → UInt8) (next : List UInt8) :
    List (List UInt8) :=
  [xorBytes (List.ofFn (maskPart aliceMask 0)) (slice next 0 16),
    xorBytes (List.ofFn (maskPart bobMask 0)) (slice next 16 16),
    xorBytes (List.ofFn (maskPart aliceMask 1)) (trafficKey next), trafficIv next]

theorem length_revealedRotation (aliceMask bobMask : Fin 32 → UInt8) {next : List UInt8}
    (nextLength : next.length = 32) :
    (revealedRotation aliceMask bobMask next).map List.length = [16, 16, 16, 12] := by
  simp [revealedRotation, length_xorBytes, length_slice, nextLength, trafficKey, trafficIv]

theorem slice_packRotateInput (verifier : Bool) (share : Block) (mask : Fin 32 → UInt8) :
    let input := packRotateInput verifier share mask
    slice input 0 16 = List.ofFn share ∧ slice input 16 16 = List.ofFn (maskPart mask 0) ∧
      slice input 32 16 =
        if verifier then List.replicate 16 0 else List.ofFn (maskPart mask 1) := by
  have sized : [List.ofFn share, List.ofFn (maskPart mask 0),
      if verifier then List.replicate 16 0 else List.ofFn (maskPart mask 1)].map List.length =
        [16, 16, 16] := by
    simp only [List.map_cons, List.map_nil, List.length_ofFn, length_proverPart]
  exact ⟨slice_flatten sized 0, slice_flatten sized 1, slice_flatten sized 2⟩

theorem deriveRotateKey_ofBytes (computes : hkdf.Computes) :
    deriveRotateKey hkdf (ofBytes (packRotateInput true verifierShare verifierMask))
        (ofBytes (packRotateInput false proverShare proverMask)) =
      ofBytes (revealedRotation proverMask verifierMask
        (nextTrafficSecret (List.ofFn proverShare ++ List.ofFn verifierShare))).flatten := by
  obtain ⟨bobShare, bobMask, -⟩ := slice_packRotateInput true verifierShare verifierMask
  obtain ⟨aliceShare, aliceMask, keyMask⟩ := slice_packRotateInput false proverShare proverMask
  have contextFree : ([] : List Bool) = ofBytes [] := rfl
  simp only [deriveRotateKey, TypeOfDerivation.getTag]
  simp (disch := omega) only [slice_ofBytes_of_dvd, Nat.reduceDiv, bobShare, bobMask, aliceShare,
    aliceMask, keyMask, ← ofBytes_append]
  simp (disch := first | simp | decide) only [contextFree, computes.expandLabel,
    slice_ofBytes_of_dvd, Nat.reduceDiv, xorWires_ofBytes, ← ofBytes_append]
  simp only [revealedRotation, List.flatten_cons, List.flatten_nil, List.append_nil,
    List.append_assoc]
  rfl

/-- The outputs of a rotation are the keys of the next traffic secret. -/
theorem runRotateCircuit_shares (computes : hkdf.Computes) :
    let next := nextTrafficSecret (List.ofFn proverShare ++ List.ofFn verifierShare)
    let out := runRotateCircuit hkdf proverShare verifierShare proverMask verifierMask
    out.1.share.Recombine out.2.share next := by
  intro next out
  have nextLength : next.length = 32 := length_expandLabel _ _ _ _
  have sized := length_revealedRotation proverMask verifierMask nextLength
  have bytesLength : (revealedRotation proverMask verifierMask next).flatten.length = 60 :=
    length_flatten_of_sized sized
  have revealed : toBytes 60 (deriveRotateKey hkdf
      (ofBytes (packRotateInput true verifierShare verifierMask))
      (ofBytes (packRotateInput false proverShare proverMask))) =
        (revealedRotation proverMask verifierMask next).flatten := by
    rw [deriveRotateKey_ofBytes computes]
    exact toBytes_ofBytes bytesLength
  have split : out = (unpackRotateOutput false proverMask _, unpackRotateOutput true verifierMask _) :=
    congrArg (fun bytes => (unpackRotateOutput false proverMask bytes,
      unpackRotateOutput true verifierMask bytes)) revealed
  simp only [split, unpackRotateOutput, RotateCircuitOut.share, Bool.false_eq_true, if_true,
    if_false]
  refine ⟨?_, ?_, rfl, ?_⟩
  · exact append_unmasked (maskPart proverMask 0) (maskPart verifierMask 0) (by omega) nextLength
      (slice_flatten sized 0) (slice_flatten sized 1)
  · exact xor_maskedKey (maskPart proverMask 1) (by omega) (length_expandLabel _ _ _ _)
      (slice_flatten sized 2)
  · exact (ofFn_field _ (by omega)).trans (slice_flatten sized 3)

end Rotation

section Traffic

variable {hkdf : HkdfWires} {proverMs verifierMs : Block} {hash : Fin 32 → UInt8}
  {proverMask verifierMask : Fin 64 → UInt8}

/-- The parts of the bytes that the traffic circuit reveals for the secrets `cats` and `sats`. -/
def revealedTraffic (aliceMask bobMask : Fin 64 → UInt8) (cats sats : List UInt8) :
    List (List UInt8) :=
  [xorBytes (List.ofFn (maskPart aliceMask 0)) (trafficKey cats), trafficIv cats,
    xorBytes (List.ofFn (maskPart aliceMask 1)) (trafficKey sats), trafficIv sats,
    xorBytes (List.ofFn (maskPart aliceMask 2)) (slice cats 0 16),
    xorBytes (List.ofFn (maskPart bobMask 2)) (slice cats 16 16),
    xorBytes (List.ofFn (maskPart aliceMask 3)) (slice sats 0 16),
    xorBytes (List.ofFn (maskPart bobMask 3)) (slice sats 16 16)]

theorem length_revealedTraffic (aliceMask bobMask : Fin 64 → UInt8) {cats sats : List UInt8}
    (catsLength : cats.length = 32) (satsLength : sats.length = 32) :
    (revealedTraffic aliceMask bobMask cats sats).map List.length =
      [16, 12, 16, 12, 16, 16, 16, 16] := by
  simp [revealedTraffic, length_xorBytes, length_slice, trafficKey, trafficIv, catsLength,
    satsLength]

theorem slice_packTrafficInput (verifier : Bool) (msShare : Block) (hash : Fin 32 → UInt8)
    (mask : Fin 64 → UInt8) :
    let input := packTrafficInput verifier msShare hash mask
    slice input 0 16 = List.ofFn msShare ∧
      slice input 16 32 = (if verifier then List.replicate 32 0 else List.ofFn hash) ∧
      slice input 48 64 = List.ofFn mask := by
  have sized : [List.ofFn msShare, if verifier then List.replicate 32 0 else List.ofFn hash,
      List.ofFn mask].map List.length = [16, 32, 64] := by
    simp only [List.map_cons, List.map_nil, List.length_ofFn, length_proverPart]
  exact ⟨slice_flatten sized 0, slice_flatten sized 1, slice_flatten sized 2⟩

theorem produceCombinedTrafficCircuits_ofBytes (computes : hkdf.Computes) :
    let ms := List.ofFn proverMs ++ List.ofFn verifierMs
    produceCombinedTrafficCircuits hkdf
        (ofBytes (packTrafficInput true verifierMs (fun _ => 0) verifierMask))
        (ofBytes (packTrafficInput false proverMs hash proverMask)) =
      ofBytes (revealedTraffic proverMask verifierMask
        (clientApplicationTrafficSecret ms (List.ofFn hash))
        (serverApplicationTrafficSecret ms (List.ofFn hash))).flatten := by
  intro ms
  obtain ⟨bobMs, -, bobMask⟩ := slice_packTrafficInput true verifierMs (fun _ => 0) verifierMask
  obtain ⟨aliceMs, aliceHash, aliceMask⟩ := slice_packTrafficInput false proverMs hash proverMask
  have contextFree : ([] : List Bool) = ofBytes [] := rfl
  simp only [produceCombinedTrafficCircuits, TypeOfDerivation.getTag]
  simp (disch := omega) only [slice_ofBytes_of_dvd, Nat.reduceDiv, bobMs, bobMask, aliceMs,
    aliceHash, aliceMask, slice_mask, ← ofBytes_append, Bool.false_eq_true, if_false]
  simp (disch := first | simp | decide) only [contextFree, computes.expandLabel,
    slice_ofBytes_of_dvd, Nat.reduceDiv, xorWires_ofBytes, ← ofBytes_append]
  simp only [revealedTraffic, List.flatten_cons, List.flatten_nil, List.append_nil,
    List.append_assoc]
  rfl

/-- The outputs of the traffic circuit are the keys of the first application traffic secrets. -/
theorem runTrafficCircuit_shares (computes : hkdf.Computes) :
    let ms := List.ofFn proverMs ++ List.ofFn verifierMs
    let cats := clientApplicationTrafficSecret ms (List.ofFn hash)
    let sats := serverApplicationTrafficSecret ms (List.ofFn hash)
    let out := runTrafficCircuit hkdf proverMs verifierMs hash proverMask verifierMask
    (out.1.share .client).Recombine (out.2.share .client) cats ∧
      (out.1.share .server).Recombine (out.2.share .server) sats := by
  intro ms cats sats out
  have catsLength : cats.length = 32 := length_expandLabel _ _ _ _
  have satsLength : sats.length = 32 := length_expandLabel _ _ _ _
  have sized := length_revealedTraffic proverMask verifierMask catsLength satsLength
  have bytesLength : (revealedTraffic proverMask verifierMask cats sats).flatten.length = 120 :=
    length_flatten_of_sized sized
  have revealed : toBytes 120 (produceCombinedTrafficCircuits hkdf
      (ofBytes (packTrafficInput true verifierMs (fun _ => 0) verifierMask))
      (ofBytes (packTrafficInput false proverMs hash proverMask))) =
        (revealedTraffic proverMask verifierMask cats sats).flatten := by
    rw [produceCombinedTrafficCircuits_ofBytes computes]
    exact toBytes_ofBytes bytesLength
  have split : out =
      (unpackTrafficOutput false proverMask _, unpackTrafficOutput true verifierMask _) :=
    congrArg (fun bytes => (unpackTrafficOutput false proverMask bytes,
      unpackTrafficOutput true verifierMask bytes)) revealed
  simp only [split, unpackTrafficOutput, TrafficKeyShares.share, Bool.false_eq_true, if_true,
    if_false]
  refine ⟨⟨?_, ?_, rfl, ?_⟩, ?_, ?_, rfl, ?_⟩
  · exact append_unmasked (maskPart proverMask 2) (maskPart verifierMask 2) (by omega) catsLength
      (slice_flatten sized 4) (slice_flatten sized 5)
  · exact xor_maskedKey (maskPart proverMask 0) (by omega) (length_expandLabel _ _ _ _)
      (slice_flatten sized 0)
  · exact (ofFn_field _ (by omega)).trans (slice_flatten sized 1)
  · exact append_unmasked (maskPart proverMask 3) (maskPart verifierMask 3) (by omega) satsLength
      (slice_flatten sized 6) (slice_flatten sized 7)
  · exact xor_maskedKey (maskPart proverMask 1) (by omega) (length_expandLabel _ _ _ _)
      (slice_flatten sized 2)
  · exact (ofFn_field _ (by omega)).trans (slice_flatten sized 3)

end Traffic

section Runs

variable {hkdf : HkdfWires} {keys : JointKeys} {direction : Direction} {secret : List UInt8}

/-- A rotation changes the shares of its direction only, to those that the circuit outputs. -/
theorem JointKeys.share_rotate (hkdf : HkdfWires) (keys : JointKeys) (rotation : Rotation)
    (direction : Direction) :
    let out := runRotateCircuit hkdf (keys.prover.share rotation.direction).secret
      (keys.verifier.share rotation.direction).secret rotation.proverMask rotation.verifierMask
    (keys.rotate hkdf rotation).prover.share direction =
        (if rotation.direction = direction then out.1.share else keys.prover.share direction) ∧
      (keys.rotate hkdf rotation).verifier.share direction =
        (if rotation.direction = direction then out.2.share else keys.verifier.share direction) := by
  rcases rotation with ⟨rotated, proverMask, verifierMask⟩
  cases rotated <;> cases direction <;>
    simp [JointKeys.rotate, ProverKeys.rotate, ProverKeys.share, TrafficKeyShares.rotate,
      TrafficKeyShares.share, RotateCircuitOut.share, staticIv_storeIv]

/-- A rotation moves its direction to the next traffic secret. -/
theorem JointKeys.recombine_rotate (computes : hkdf.Computes) (rotation : Rotation)
    (share : (keys.prover.share direction).Recombine (keys.verifier.share direction) secret) :
    ((keys.rotate hkdf rotation).prover.share direction).Recombine
      ((keys.rotate hkdf rotation).verifier.share direction)
      (if rotation.direction = direction then nextTrafficSecret secret else secret) := by
  obtain ⟨prover, verifier⟩ := keys.share_rotate hkdf rotation direction
  rw [prover, verifier]
  split
  next rotated =>
    subst rotated
    rw [← share.halves]
    exact runRotateCircuit_shares computes
  next => exact share

/-- The number of rotations in a direction. -/
def rotationsIn (direction : Direction) (rotations : List Rotation) : ℕ :=
  rotations.countP fun rotation => rotation.direction = direction

/-- The state after any rotations holds the traffic secret of that many updates. -/
theorem JointKeys.recombine_rotateAll (computes : hkdf.Computes) (rotations : List Rotation)
    (share : (keys.prover.share direction).Recombine (keys.verifier.share direction) secret) :
    ((keys.rotateAll hkdf rotations).prover.share direction).Recombine
      ((keys.rotateAll hkdf rotations).verifier.share direction)
      (nextTrafficSecret^[rotationsIn direction rotations] secret) := by
  induction rotations generalizing keys secret with
  | nil => exact share
  | cons rotation rotations ih =>
      have later := ih (keys.recombine_rotate computes rotation share)
      have updates : nextTrafficSecret^[rotationsIn direction (rotation :: rotations)] secret =
          nextTrafficSecret^[rotationsIn direction rotations]
            (if rotation.direction = direction then nextTrafficSecret secret else secret) := by
        by_cases rotated : rotation.direction = direction
        · simp [rotationsIn, rotated]
        · simp [rotationsIn, rotated]
      rw [updates]
      exact later

/-- The first application traffic secret of a direction. -/
def applicationTrafficSecret (ms hash : List UInt8) : Direction → List UInt8
  | .client => clientApplicationTrafficSecret ms hash
  | .server => serverApplicationTrafficSecret ms hash

/-- The traffic keys stay shared through any number of key updates in either direction. -/
theorem JointKeys.recombine_trafficKeys (computes : hkdf.Computes) (initial : ProverKeys)
    (proverMs verifierMs : Block) (hash : Fin 32 → UInt8) (proverMask verifierMask : Fin 64 → UInt8)
    (rotations : List Rotation) :
    let out := runTrafficCircuit hkdf proverMs verifierMs hash proverMask verifierMask
    let keys := JointKeys.rotateAll hkdf ⟨initial.install out.1, out.2⟩ rotations
    let ms := List.ofFn proverMs ++ List.ofFn verifierMs
    (∀ direction, (keys.prover.share direction).Recombine (keys.verifier.share direction)
        (nextTrafficSecret^[rotationsIn direction rotations]
          (applicationTrafficSecret ms (List.ofFn hash) direction))) ∧
      ∀ (rotation : Rotation) (direction : Direction), rotation.direction ≠ direction →
        (keys.rotate hkdf rotation).prover.share direction = keys.prover.share direction ∧
          (keys.rotate hkdf rotation).verifier.share direction =
            keys.verifier.share direction := by
  intro out keys ms
  constructor
  · intro direction
    apply recombine_rotateAll computes
    obtain ⟨client, server⟩ := runTrafficCircuit_shares computes
    rw [ProverKeys.share_install]
    cases direction with
    | client => exact client
    | server => exact server
  · intro rotation direction other
    obtain ⟨prover, verifier⟩ := keys.share_rotate hkdf rotation direction
    rw [prover, verifier, if_neg other, if_neg other]
    exact ⟨rfl, rfl⟩

/-- Two updates of the server direction and one of the client direction, with fixed masks. -/
def threeRotations : List Rotation :=
  [⟨.server, fun _ => 6, fun _ => 7⟩, ⟨.client, fun _ => 8, fun _ => 9⟩,
    ⟨.server, fun _ => 10, fun _ => 11⟩]

theorem JointKeys.recombine_threeRotations :
    let out := runTrafficCircuit .onBytes (fun _ => 1) (fun _ => 2) (fun _ => 3) (fun _ => 4)
      (fun _ => 5)
    let keys := JointKeys.rotateAll .onBytes
      ⟨.install ⟨0, 0, 0, 0, 0, 0⟩ out.1, out.2⟩ threeRotations
    (keys.prover.share .server).Recombine (keys.verifier.share .server)
      (nextTrafficSecret^[2] (serverApplicationTrafficSecret
        (List.ofFn (fun _ : Fin 16 => 1) ++ List.ofFn (fun _ : Fin 16 => 2))
        (List.ofFn fun _ : Fin 32 => 3))) := by
  intro out keys
  have updates : rotationsIn .server threeRotations = 2 := rfl
  have shared := (recombine_trafficKeys HkdfWires.computes_onBytes ⟨0, 0, 0, 0, 0, 0⟩
    (fun _ => 1) (fun _ => 2) (fun _ => 3) (fun _ => 4) (fun _ => 5) threeRotations).1 .server
  rw [updates] at shared
  exact shared

end Runs

section Handlers

/-- The keys in the session of a verifier. -/
def Session.trafficKeys (session : Session) : TrafficKeyShares where
  clientIv := session.clientIv
  serverIv := session.serverIv
  clientKeyShare := session.clientKeyShare
  serverKeyShare := session.serverKeyShare
  catsShare := session.catsShare
  satsShare := session.satsShare

/-- The keys in a prover's `SSL`, which does not model `cats_share`. -/
def Prover.Ssl.keys (ssl : Prover.Ssl) (catsShare : Block) : ProverKeys where
  catsShare := catsShare
  satsShare := ssl.satsShare
  clientKeyShare := ssl.clientKeyShare
  serverKeyShare := ssl.serverKeyShare
  clientIv := ssl.clientIv
  serverIv := ssl.serverIv

open Handler

/-- `rotate_key_op` runs the circuit on the secret share of its direction and installs what it
outputs. -/
theorem Server.ensures_rotateKeyOp (env : Environment) (server : Server) :
    Ensures (Server.rotateKeyOp env)
      (fun _ after => ∃ direction now out,
        env.rotate now (server.session.trafficKeys.share direction).secret = some out ∧
          after.session.trafficKeys = server.session.trafficKeys.rotate out direction) server := by
  refine Ensures.get_bind (Ensures.require_bind fun _ => ?_)
  refine Ensures.bind ((Server.ensures_requireCircuit .rotate).mono ?_)
  rintro _ _ rfl
  refine Ensures.bind ((Server.ensures_requireCircuit .gcm).mono ?_)
  rintro _ _ rfl
  refine Ensures.bind ((Server.ensures_readExact 1).mono ?_)
  rintro bytes _ ⟨-, -, rfl⟩
  refine Ensures.ofOption_bind fun direction _ => Ensures.require_bind fun _ => ?_
  refine Ensures.bind (Server.ensures_tick.mono ?_)
  rintro now _ ⟨_, rfl⟩
  refine Ensures.ofOption_bind fun out ran => Ensures.modify_bind ?_
  refine Ensures.silent_bind Server.session (Server.keeps_makeGcmShareFor _) fun powers shared same => ?_
  refine Ensures.modify ⟨direction, now, out, ?_, ?_⟩
  · cases direction <;> exact ran
  · simp only [same]
    cases direction <;> rfl

theorem Prover.ensures_rotateServerKeys (env : Prover.Environment) (ssl : Prover.Ssl) :
    Ensures (Prover.rotateServerKeys env)
      (fun _ after => ∃ now out, env.rotate now ssl.satsShare = some out ∧
        ∀ catsShare, after.keys catsShare = (ssl.keys catsShare).rotate out .server) ssl := by
  refine Ensures.get_bind (Ensures.require_bind fun _ => ?_)
  refine Ensures.bind ((Prover.ensures_sslWrite _).mono ?_)
  rintro _ _ rfl
  refine Ensures.bind (Prover.ensures_tick.mono ?_)
  rintro now _ ⟨_, rfl⟩
  refine Ensures.ofOption_bind fun out ran => Ensures.modify_bind ?_
  refine Ensures.bind (Prover.ensures_tick.mono ?_)
  rintro _ _ ⟨_, rfl⟩
  refine Ensures.ofOption_bind fun powers _ => Ensures.modify ⟨now, out, ran, fun _ => rfl⟩

end Handlers

end PracticalCrypto.Surf
