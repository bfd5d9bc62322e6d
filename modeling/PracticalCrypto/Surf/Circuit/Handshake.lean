import PracticalCrypto.Mta.Zq
import PracticalCrypto.Surf.BlockMap
import PracticalCrypto.Surf.Circuit.KeySchedule

/-!
# The joint derivation of the handshake secrets

This file embeds `ProduceCombinedCircuit` of `surf-impl/src/2pc/DeriveCircuits.cpp`
and `run_handshake_circuit` of `surf-impl/src/ssl/ThreePartyHandshake.cpp` for
both parties at once. The prover is the party ALICE of the circuit and the
verifier the party BOB. Each party chooses a mask, and the circuit reveals the
same bytes to both.

The addition circuit is a parameter; `AddsModP` is the assumption that it adds
reduced numbers modulo the prime of the curve.
-/

namespace PracticalCrypto.Surf

open Wires KeySchedule

/-- `HandshakeCircuitIn`; the share of the DHE value is a big-endian integer of `width` bytes. -/
structure HandshakeCircuitIn (width : ℕ) where
  hash : Fin 32 → UInt8
  keyShare : Fin width → UInt8
  pskShare : Block

/-- `HandshakeCircuitOut`. -/
structure HandshakeCircuitOut where
  xorMask : Fin 96 → UInt8
  dheShare : Block
  chtsShare : Block
  shtsShare : Block
  dhsShare : Block
  msShare : Block
  fkS : Fin 32 → UInt8
  serverKeyShare : Block
  iv : Iv

/-- The addition circuit reads the prime, the share of BOB and the share of ALICE, and returns
the sum, all as little-endian integers of `length` bits. -/
def AddsModP (modAdd : List Bool → List Bool → List Bool → List Bool) (length p : ℕ) : Prop :=
  ∀ a b : ℕ, a < p → b < p →
    modAdd (ofNat length p) (ofNat length b) (ofNat length a) = ofNat length ((a + b) % p)

/-- `ProduceCombinedCircuit`, from the input wires of each party to the revealed wires. -/
def produceCombinedCircuit (hkdf : HkdfWires)
    (modAdd : List Bool → List Bool → List Bool → List Bool) (length p : ℕ)
    (bob alice : List Bool) : List Bool :=
  -- each party feeds its PSK share, the transcript hash (ignored for BOB), its mask and its
  -- DHE share
  let psk := slice alice 0 128 ++ slice bob 0 128
  let h2 := slice alice 128 256
  let bobMask := slice bob 384 768
  let aliceMask := slice alice 384 768
  let bobShareIn := slice bob 1152 length
  let aliceShareIn := slice alice 1152 length
  let zeroKey := List.replicate 256 false
  let h0 := ofBytes emptyHash
  -- 521 bits are padded to whole bytes
  let size := if length = 521 then 528 else length
  let addition := rearrangeSumBits
    (modAdd (ofNat length p) bobShareIn aliceShareIn ++ List.replicate (size - length) false)
  let es := hkdf.extract zeroKey psk
  let des := hkdf.expandLabel es TypeOfDerivation.dhs.getTag h0 32
  let derivedSecret := hkdf.extract des addition
  let derivedChts := hkdf.expandLabel derivedSecret TypeOfDerivation.clientHts.getTag h2 32
  let derivedShts := hkdf.expandLabel derivedSecret TypeOfDerivation.serverHts.getTag h2 32
  let derivedDhs := hkdf.expandLabel derivedSecret TypeOfDerivation.dhs.getTag h0 32
  let ms := hkdf.extract derivedDhs zeroKey
  let fks := hkdf.expandLabel derivedShts TypeOfDerivation.fkS.getTag [] 32
  let aesKey := hkdf.expandLabel derivedShts TypeOfDerivation.serverHandshakeKey.getTag [] 16
  let iv := hkdf.expandLabel derivedShts TypeOfDerivation.serverHandshakeIv.getTag [] 12
  -- the `curr` wires of the masks before these are used already
  let xorSecrets (curr : ℕ) (blocks : List Bool) : List Bool :=
    xorWires (slice aliceMask curr 128) (slice blocks 0 128) ++
      xorWires (slice bobMask curr 128) (slice blocks 128 128)
  xorSecrets 0 derivedSecret ++ xorSecrets 128 derivedChts ++ xorSecrets 256 derivedShts ++
    xorSecrets 384 derivedDhs ++ xorSecrets 512 ms ++ fks ++
    xorWires aesKey (slice aliceMask 640 128) ++ iv

section Run

variable {width : ℕ}

/-- The input array of `run_handshake_circuit_internal`. The share is converted to little-endian
through a `BIGNUM`, and the verifier leaves the bytes of the hash zero. -/
def HandshakeCircuitIn.pack (input : HandshakeCircuitIn width) (verifier : Bool)
    (mask : Fin 96 → UInt8) : List UInt8 :=
  [List.ofFn input.pskShare, if verifier then List.replicate 32 0 else List.ofFn input.hash,
    List.ofFn mask, (List.ofFn input.keyShare).reverse].flatten

/-- What `run_handshake_circuit_internal` reads from the output array. -/
def HandshakeCircuitOut.unpack (verifier : Bool) (mask : Fin 96 → UInt8) (out : List UInt8) :
    HandshakeCircuitOut :=
  let offset := if verifier then 16 else 0
  let secret (k : ℕ) : Block := fun i => field out (32 * k + offset) 16 i ^^^ maskPart mask k i
  { xorMask := mask
    dheShare := secret 0
    chtsShare := secret 1
    shtsShare := secret 2
    dhsShare := secret 3
    msShare := secret 4
    fkS := field out 160 32
    serverKeyShare := field out 192 16
    iv := field out 208 12 }

/-- `run_handshake_circuit` on both sides of one circuit. There are circuits for 256 and 384
bits only. -/
def runHandshakeCircuit (hkdf : HkdfWires)
    (modAdd : List Bool → List Bool → List Bool → List Bool) (p : ℕ)
    (prover verifier : HandshakeCircuitIn width) (proverMask verifierMask : Fin 96 → UInt8) :
    Option (HandshakeCircuitOut × HandshakeCircuitOut) :=
  if 8 * width = 256 ∨ 8 * width = 384 then
    let out := toBytes 220 (produceCombinedCircuit hkdf modAdd (8 * width) p
      (ofBytes (verifier.pack true verifierMask)) (ofBytes (prover.pack false proverMask)))
    some (.unpack false proverMask out, .unpack true verifierMask out)
  else none

end Run

section Circuit

variable {hkdf : HkdfWires} {modAdd : List Bool → List Bool → List Bool → List Bool}
  {width p : ℕ} {prover verifier : HandshakeCircuitIn width}
  {proverMask verifierMask : Fin 96 → UInt8} {hs : List UInt8}

/-- The share of the DHE value, an element of the base field. -/
def HandshakeCircuitIn.dhe (input : HandshakeCircuitIn width) : ℕ :=
  BigEndian.toNat (List.ofFn input.keyShare)

/-- The handshake secret of RFC 8446 for the joint PSK and the sum of the DHE shares. -/
def jointHandshakeSecret (p : ℕ) (prover verifier : HandshakeCircuitIn width) : List UInt8 :=
  handshakeSecret (List.ofFn prover.pskShare ++ List.ofFn verifier.pskShare)
    (BigEndian.ofNat width ((prover.dhe + verifier.dhe) % p))

theorem length_jointHandshakeSecret (p : ℕ) (prover verifier : HandshakeCircuitIn width) :
    (jointHandshakeSecret p prover verifier).length = 32 :=
  Hkdf.length_extract _ _

/-- The parts of the bytes that the circuit reveals when it derives the handshake secret `hs`. -/
def revealedSecrets (aliceMask bobMask : Fin 96 → UInt8) (hs hash : List UInt8) :
    List (List UInt8) :=
  let shts := serverHandshakeTrafficSecret hs hash
  maskedHalves 0 hs ++ maskedHalves 1 (clientHandshakeTrafficSecret hs hash) ++
    maskedHalves 2 shts ++ maskedHalves 3 (derivedHandshakeSecret hs) ++
    maskedHalves 4 (masterSecret hs) ++
    [finishedKey shts, xorBytes (trafficKey shts) (List.ofFn (maskPart aliceMask 5)),
      trafficIv shts]
where
  maskedHalves (k : ℕ) (secret : List UInt8) : List (List UInt8) :=
    [xorBytes (List.ofFn (maskPart aliceMask k)) (slice secret 0 16),
      xorBytes (List.ofFn (maskPart bobMask k)) (slice secret 16 16)]

theorem length_revealedSecrets (aliceMask bobMask : Fin 96 → UInt8) (hash : List UInt8)
    (hsLength : hs.length = 32) :
    (revealedSecrets aliceMask bobMask hs hash).map List.length =
      [16, 16, 16, 16, 16, 16, 16, 16, 16, 16, 32, 16, 12] := by
  have msLength : (masterSecret hs).length = 32 := Hkdf.length_extract _ _
  simp [revealedSecrets, revealedSecrets.maskedHalves, length_xorBytes, length_slice, hsLength,
    msLength, clientHandshakeTrafficSecret, serverHandshakeTrafficSecret, derivedHandshakeSecret,
    deriveSecret, finishedKey, trafficKey, trafficIv]

theorem slice_pack (input : HandshakeCircuitIn width) (verifier : Bool)
    (mask : Fin 96 → UInt8) :
    let packed := input.pack verifier mask
    slice packed 0 16 = List.ofFn input.pskShare ∧
      slice packed 16 32 = (if verifier then List.replicate 32 0 else List.ofFn input.hash) ∧
      slice packed 48 96 = List.ofFn mask ∧
      slice packed 144 width = (List.ofFn input.keyShare).reverse := by
  have sized : [List.ofFn input.pskShare,
      if verifier then List.replicate 32 0 else List.ofFn input.hash, List.ofFn mask,
      (List.ofFn input.keyShare).reverse].map List.length = [16, 32, 96, width] := by
    simp only [List.map_cons, List.map_nil, List.length_ofFn, List.length_reverse,
      length_proverPart]
  exact ⟨slice_flatten sized 0, slice_flatten sized 1, slice_flatten sized 2, slice_flatten sized 3⟩

theorem ofBytes_share (input : HandshakeCircuitIn width) :
    ofBytes (List.ofFn input.keyShare).reverse = ofNat (8 * width) input.dhe := by
  have share := BigEndian.ofNat_toNat (List.ofFn input.keyShare)
  rw [List.length_ofFn] at share
  rw [HandshakeCircuitIn.dhe, ← ofBytes_reverse_ofNat, share]

theorem extract_handshakeSecret (computes : hkdf.Computes) {psk dhe : List UInt8}
    (shortPsk : psk.length ≤ 32) (shortDhe : dhe.length ≤ 48) :
    hkdf.extract
        (hkdf.expandLabel (hkdf.extract (List.replicate 256 false) (ofBytes psk)) "derived"
          (ofBytes emptyHash) 32)
        (ofBytes dhe) =
      ofBytes (handshakeSecret psk dhe) := by
  have es := computes.extract (List.replicate 32 0) psk (by simp) (by omega)
  rw [ofBytes_replicate_zero] at es
  rw [es, computes.expandLabel (by simp) (by decide) (by decide) (by simp),
    computes.extract _ _ (by simp) (by omega), ← sha256_nil]
  rfl

theorem extract_masterSecret (computes : hkdf.Computes) (secret : List UInt8)
    (secretLength : secret.length = 32) :
    hkdf.extract (hkdf.expandLabel (ofBytes secret) "derived" (ofBytes emptyHash) 32)
        (List.replicate 256 false) =
      ofBytes (masterSecret secret) := by
  have ms := computes.extract (derivedHandshakeSecret secret) (List.replicate 32 0)
    (length_expandLabel _ _ _ _) (by decide)
  rw [ofBytes_replicate_zero] at ms
  rw [masterSecret, ← ms,
    computes.expandLabel secretLength (by decide) (by decide) (by simp), ← sha256_nil]
  rfl

/-- The circuit reveals the masked key schedule of the joint PSK and the sum of the shares. -/
theorem produceCombinedCircuit_ofBytes (computes : hkdf.Computes) (supported : width ≤ 48)
    (adds : AddsModP modAdd (8 * width) p) (proverReduced : prover.dhe < p)
    (verifierReduced : verifier.dhe < p) :
    produceCombinedCircuit hkdf modAdd (8 * width) p (ofBytes (verifier.pack true verifierMask))
        (ofBytes (prover.pack false proverMask)) =
      ofBytes (revealedSecrets proverMask verifierMask (jointHandshakeSecret p prover verifier)
        (List.ofFn prover.hash)).flatten := by
  obtain ⟨bobPsk, -, bobMask, bobShare⟩ := slice_pack verifier true verifierMask
  obtain ⟨alicePsk, aliceHash, aliceMask, aliceShare⟩ := slice_pack prover false proverMask
  have sum := adds _ _ proverReduced verifierReduced
  have wholeBytes : 8 * width ≠ 521 := by omega
  simp only [produceCombinedCircuit, TypeOfDerivation.getTag]
  simp (disch := omega) only [slice_ofBytes_of_dvd, Nat.reduceDiv, Nat.mul_div_cancel_left,
    bobPsk, bobMask, bobShare, alicePsk, aliceHash, aliceMask, aliceShare, slice_mask,
    ofBytes_share, sum, if_neg wholeBytes, Nat.sub_self, List.replicate_zero, List.append_nil,
    rearrangeSumBits_ofNat, ← ofBytes_append, Bool.false_eq_true, if_false]
  rw [extract_handshakeSecret computes (by simp) (by simpa using supported)]
  -- from here on every secret is a byte string derived from the handshake secret
  rw [← jointHandshakeSecret]
  have secretLength := length_jointHandshakeSecret p prover verifier
  have contextFree : ([] : List Bool) = ofBytes [] := rfl
  rw [extract_masterSecret computes _ secretLength]
  simp (disch := first | simp [secretLength] | decide) only [contextFree, computes.expandLabel,
    slice_ofBytes_of_dvd, Nat.reduceDiv, xorWires_ofBytes, ← ofBytes_append, ← sha256_nil]
  simp only [revealedSecrets, revealedSecrets.maskedHalves, List.flatten_cons, List.flatten_nil,
    List.append_nil, List.append_assoc, List.cons_append, List.nil_append]
  rfl

end Circuit

section Spec

variable {width : ℕ} {hkdf : HkdfWires} {modAdd : List Bool → List Bool → List Bool → List Bool}
  {p : ℕ} {prover verifier : HandshakeCircuitIn width} {proverMask verifierMask : Fin 96 → UInt8}
  {proverOut verifierOut : HandshakeCircuitOut}

/-- The shares of the two parties make up the secrets of the RFC 8446 key schedule, and both
hold the finished key and the IV of the server. -/
theorem runHandshakeCircuit_keySchedule (computes : hkdf.Computes)
    (adds : AddsModP modAdd (8 * width) p)
    (proverReduced : prover.dhe < p) (verifierReduced : verifier.dhe < p)
    (ran : runHandshakeCircuit hkdf modAdd p prover verifier proverMask verifierMask =
      some (proverOut, verifierOut)) :
    let hs := jointHandshakeSecret p prover verifier
    let hash := List.ofFn prover.hash
    let shts := serverHandshakeTrafficSecret hs hash
    List.ofFn proverOut.chtsShare ++ List.ofFn verifierOut.chtsShare =
        clientHandshakeTrafficSecret hs hash ∧
      List.ofFn proverOut.shtsShare ++ List.ofFn verifierOut.shtsShare = shts ∧
      List.ofFn proverOut.dhsShare ++ List.ofFn verifierOut.dhsShare = derivedHandshakeSecret hs ∧
      List.ofFn proverOut.msShare ++ List.ofFn verifierOut.msShare = masterSecret hs ∧
      proverOut.fkS = verifierOut.fkS ∧ List.ofFn proverOut.fkS = finishedKey shts ∧
      proverOut.iv = verifierOut.iv ∧ List.ofFn proverOut.iv = trafficIv shts := by
  intro hs hash shts
  have hsLength : hs.length = 32 := length_jointHandshakeSecret p prover verifier
  have sized := length_revealedSecrets proverMask verifierMask hash hsLength
  rw [runHandshakeCircuit] at ran
  split at ran
  next supported =>
    have outLength : (revealedSecrets proverMask verifierMask hs hash).flatten.length = 220 :=
      length_flatten_of_sized sized
    rw [produceCombinedCircuit_ofBytes computes (by omega) adds proverReduced verifierReduced,
      toBytes_ofBytes outLength] at ran
    simp only [Option.some.injEq, Prod.mk.injEq] at ran
    obtain ⟨rfl, rfl⟩ := ran
    simp only [HandshakeCircuitOut.unpack, Bool.false_eq_true, if_true, if_false]
    refine ⟨?_, ?_, ?_, ?_, trivial, ?_, trivial, ?_⟩
    · exact append_unmasked (maskPart proverMask 1) (maskPart verifierMask 1) (by omega)
        (length_expandLabel _ _ _ _) (slice_flatten sized 2) (slice_flatten sized 3)
    · exact append_unmasked (maskPart proverMask 2) (maskPart verifierMask 2) (by omega)
        (length_expandLabel _ _ _ _) (slice_flatten sized 4) (slice_flatten sized 5)
    · exact append_unmasked (maskPart proverMask 3) (maskPart verifierMask 3) (by omega)
        (length_expandLabel _ _ _ _) (slice_flatten sized 6) (slice_flatten sized 7)
    · exact append_unmasked (maskPart proverMask 4) (maskPart verifierMask 4) (by omega)
        (Hkdf.length_extract _ _) (slice_flatten sized 8) (slice_flatten sized 9)
    · exact (ofFn_field _ (by omega)).trans (slice_flatten sized 10)
    · exact (ofFn_field _ (by omega)).trans (slice_flatten sized 12)
  next => cases ran

/-- The server handshake key of RFC 8446 that the two shares should recombine to. -/
def jointServerHandshakeKey (p : ℕ) (prover verifier : HandshakeCircuitIn width) : List UInt8 :=
  trafficKey (serverHandshakeTrafficSecret (jointHandshakeSecret p prover verifier)
    (List.ofFn prover.hash))

/-- Both parties copy the same bytes into `server_key_share`, the prover too, whose share should
be its mask. -/
theorem serverKeyShares_zero
    (ran : runHandshakeCircuit hkdf modAdd p prover verifier proverMask verifierMask =
      some (proverOut, verifierOut)) :
    List.ofFn (fun i => proverOut.serverKeyShare i ^^^ verifierOut.serverKeyShare i) =
      List.replicate 16 0 := by
  have sameShare : proverOut.serverKeyShare = verifierOut.serverKeyShare := by
    rw [runHandshakeCircuit] at ran
    split at ran
    next =>
      simp only [Option.some.injEq, Prod.mk.injEq] at ran
      rw [← ran.1, ← ran.2]
      rfl
    next => cases ran
  simp only [sameShare, UInt8.xor_self]
  exact List.ofFn_const 16 0

/-- The shares recombine to zero, which is the server handshake key only if the key is zero. -/
theorem runHandshakeCircuit_serverKeyShares_iff
    (ran : runHandshakeCircuit hkdf modAdd p prover verifier proverMask verifierMask =
      some (proverOut, verifierOut)) :
    List.ofFn (fun i => proverOut.serverKeyShare i ^^^ verifierOut.serverKeyShare i) =
        jointServerHandshakeKey p prover verifier ↔
      jointServerHandshakeKey p prover verifier = List.replicate 16 0 := by
  rw [serverKeyShares_zero ran]
  exact eq_comm

end Spec

section P256

open Mta (p256)

/-- An addition circuit on wires that decodes and encodes its integers. -/
def addOnWires (p b a : List Bool) : List Bool := ofNat p.length ((toNat a + toNat b) % toNat p)

theorem addsModP_addOnWires {length p : ℕ} (fits : p < 2 ^ length) :
    AddsModP addOnWires length p := by
  intro a b aReduced bReduced
  have decoded : ∀ value, value ≤ p → toNat (ofNat length value) = value := by
    intro value small
    rw [toNat_ofNat, Nat.mod_eq_of_lt (by omega)]
  simp only [addOnWires, length_ofNat, decoded p le_rfl, decoded a aReduced.le,
    decoded b bReduced.le]

/-- The share `value` of the DHE value, with a share of a PSK and the same transcript hash for every
party. -/
def smallShare (value : UInt8) : HandshakeCircuitIn 32 where
  hash := fun i => UInt8.ofNat (3 * i.val + 1)
  keyShare := fun i => if i = 31 then value else 0
  pskShare := fun i => UInt8.ofNat i.val * value

/-- The shares 1 and 2 run on circuits for P-256. -/
def smallRun : Option (HandshakeCircuitOut × HandshakeCircuitOut) :=
  runHandshakeCircuit .onBytes addOnWires p256 (smallShare 1) (smallShare 2)
    (fun _ => 0x5a) (fun _ => 0xc3)

theorem exists_smallRun : ∃ outputs, smallRun = some outputs := by
  rw [smallRun, runHandshakeCircuit, if_pos (Or.inl (by decide))]
  exact ⟨_, rfl⟩

theorem dhe_smallShare_lt (value : UInt8) : (smallShare value).dhe < p256 := by
  have shareIs : List.ofFn (smallShare value).keyShare = List.replicate 31 0 ++ [value] := by
    rfl
  rw [HandshakeCircuitIn.dhe, shareIs, BigEndian.toNat_append]
  have zeros : BigEndian.toNat (List.replicate 31 0) = 0 := by decide
  have valueLt : value.toNat < 256 := value.toNat_lt
  have large : 256 < p256 := by decide
  omega

theorem smallRun_keySchedule :
    ∃ proverOut verifierOut, smallRun = some (proverOut, verifierOut) ∧
      List.ofFn proverOut.msShare ++ List.ofFn verifierOut.msShare =
        masterSecret (jointHandshakeSecret p256 (smallShare 1) (smallShare 2)) := by
  obtain ⟨⟨proverOut, verifierOut⟩, ran⟩ := exists_smallRun
  obtain ⟨-, -, -, ms, -⟩ := runHandshakeCircuit_keySchedule HkdfWires.computes_onBytes
    (addsModP_addOnWires (by decide)) (dhe_smallShare_lt 1) (dhe_smallShare_lt 2) ran
  exact ⟨proverOut, verifierOut, ran, ms⟩

theorem smallRun_serverKeyShares_iff :
    ∃ proverOut verifierOut, smallRun = some (proverOut, verifierOut) ∧
      (List.ofFn (fun i => proverOut.serverKeyShare i ^^^ verifierOut.serverKeyShare i) =
          jointServerHandshakeKey p256 (smallShare 1) (smallShare 2) ↔
        jointServerHandshakeKey p256 (smallShare 1) (smallShare 2) = List.replicate 16 0) := by
  obtain ⟨⟨proverOut, verifierOut⟩, ran⟩ := exists_smallRun
  exact ⟨proverOut, verifierOut, ran, runHandshakeCircuit_serverKeyShares_iff ran⟩

/-- The key of the small run is not zero, so its shares do not recombine. -/
theorem smallRun_serverKeyShares_not_key :
    ∃ proverOut verifierOut, smallRun = some (proverOut, verifierOut) ∧
      List.ofFn (fun i => proverOut.serverKeyShare i ^^^ verifierOut.serverKeyShare i) ≠
        jointServerHandshakeKey p256 (smallShare 1) (smallShare 2) := by
  obtain ⟨⟨proverOut, verifierOut⟩, ran⟩ := exists_smallRun
  have keyIs : jointServerHandshakeKey p256 (smallShare 1) (smallShare 2) =
      [0x0b, 0x3e, 0xf5, 0x59, 0xcb, 0xb8, 0x66, 0xdd, 0x87, 0x62, 0xf6, 0x35, 0x94, 0x87, 0xb7,
        0x52] := by
    decide +kernel
  refine ⟨proverOut, verifierOut, ran, ?_⟩
  rw [serverKeyShares_zero ran, keyIs]
  decide

end P256

end PracticalCrypto.Surf
