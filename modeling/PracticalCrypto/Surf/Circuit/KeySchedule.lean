import PracticalCrypto.Library.Hkdf
import PracticalCrypto.Library.Wires
import PracticalCrypto.Surf.BlockMap

/-!
# The TLS 1.3 key schedule, on bytes and on wires

The first part states the key schedule of RFC 8446 on byte strings. The second
embeds `hkdf_expand_label_internal` and `rearrange_sum_bits` of
`surf-impl/src/2pc/CircuitSynthesis.cpp` and the labels of
`surf-impl/src/2pc/DeriveCircuits.cpp`, which compute it on wires.

The circuits `hkdf_extract` and `hkdf_expand` are parameters. `HkdfWires.Computes`
is the assumption that they compute HKDF with SHA-256 on the bytes that their
wires carry.

A circuit reveals its outputs under masks that the parties feed into it; the last
part is about reading such outputs.
-/

namespace PracticalCrypto.Surf

open Wires

namespace KeySchedule

/-- The structure `HkdfLabel` of RFC 8446, section 7.1, as it is hashed. -/
def hkdfLabel (length : ℕ) (label : String) (context : List UInt8) : List UInt8 :=
  let longLabel := ("tls13 " ++ label).toList
  BigEndian.ofNat 2 length ++
    UInt8.ofNat longLabel.length :: longLabel.map (fun char => UInt8.ofNat char.toNat) ++
    UInt8.ofNat context.length :: context

theorem length_hkdfLabel (length : ℕ) (label : String) (context : List UInt8) :
    (hkdfLabel length label context).length = label.length + context.length + 10 := by
  simp only [hkdfLabel, List.length_append, List.length_cons, BigEndian.length_ofNat,
    List.length_map, String.toList_append, String.length_toList]
  have tls13Length : "tls13 ".length = 6 := rfl
  omega

/-- `HKDF-Expand-Label`. -/
def expandLabel (secret : List UInt8) (label : String) (context : List UInt8) (length : ℕ) :
    List UInt8 :=
  Hkdf.expand secret (hkdfLabel length label context) length

/-- `Derive-Secret`, for the messages with the given transcript hash. -/
def deriveSecret (secret : List UInt8) (label : String) (transcriptHash : List UInt8) :
    List UInt8 :=
  expandLabel secret label transcriptHash 32

def earlySecret (psk : List UInt8) : List UInt8 := Hkdf.extract (List.replicate 32 0) psk

def handshakeSecret (psk dhe : List UInt8) : List UInt8 :=
  Hkdf.extract (deriveSecret (earlySecret psk) "derived" (Hkdf.sha256 [])) dhe

def clientHandshakeTrafficSecret (handshakeSecret transcriptHash : List UInt8) : List UInt8 :=
  deriveSecret handshakeSecret "c hs traffic" transcriptHash

def serverHandshakeTrafficSecret (handshakeSecret transcriptHash : List UInt8) : List UInt8 :=
  deriveSecret handshakeSecret "s hs traffic" transcriptHash

def derivedHandshakeSecret (handshakeSecret : List UInt8) : List UInt8 :=
  deriveSecret handshakeSecret "derived" (Hkdf.sha256 [])

def masterSecret (handshakeSecret : List UInt8) : List UInt8 :=
  Hkdf.extract (derivedHandshakeSecret handshakeSecret) (List.replicate 32 0)

def clientApplicationTrafficSecret (masterSecret transcriptHash : List UInt8) : List UInt8 :=
  deriveSecret masterSecret "c ap traffic" transcriptHash

def serverApplicationTrafficSecret (masterSecret transcriptHash : List UInt8) : List UInt8 :=
  deriveSecret masterSecret "s ap traffic" transcriptHash

/-- The next application traffic secret of a direction, section 7.2. -/
def nextTrafficSecret (secret : List UInt8) : List UInt8 := expandLabel secret "traffic upd" [] 32

/-- The key of a traffic secret, section 7.3, for AES-128. -/
def trafficKey (secret : List UInt8) : List UInt8 := expandLabel secret "key" [] 16

def trafficIv (secret : List UInt8) : List UInt8 := expandLabel secret "iv" [] 12

def finishedKey (secret : List UInt8) : List UInt8 := expandLabel secret "finished" [] 32

def resumptionMasterSecret (masterSecret transcriptHash : List UInt8) : List UInt8 :=
  deriveSecret masterSecret "res master" transcriptHash

/-- The PSK of a ticket, section 4.6.1. -/
def ticketPsk (resumptionMasterSecret ticketNonce : List UInt8) : List UInt8 :=
  expandLabel resumptionMasterSecret "resumption" ticketNonce 32

def binderKey (psk : List UInt8) : List UInt8 :=
  deriveSecret (earlySecret psk) "res binder" (Hkdf.sha256 [])

/-- The binder of a resumption PSK, section 4.2.11.2, over the hash of the truncated
ClientHello. -/
def pskBinder (psk truncatedHash : List UInt8) : List UInt8 :=
  Hkdf.hmac (finishedKey (binderKey psk)) truncatedHash

@[simp]
theorem length_expandLabel (secret : List UInt8) (label : String) (context : List UInt8)
    (length : ℕ) : (expandLabel secret label context length).length = length :=
  Hkdf.length_expand _ _ _

end KeySchedule

/-- `TypeOfDerivation`, without `MS` and `SIZE`, which have no label. -/
inductive TypeOfDerivation where
  | clientHandshakeIv
  | clientTrafficIv
  | serverHandshakeIv
  | serverTrafficIv
  | clientHandshakeKey
  | clientTrafficKey
  | serverHandshakeKey
  | serverTrafficKey
  | dhs
  | serverHts
  | clientHts
  | cats
  | sats
  | ems
  | fkS
  | rms
  | psk
deriving Repr, DecidableEq

/-- `get_tag`. -/
def TypeOfDerivation.getTag : TypeOfDerivation → String
  | .clientHandshakeIv | .clientTrafficIv | .serverHandshakeIv | .serverTrafficIv => "iv"
  | .dhs => "derived"
  | .clientHandshakeKey | .clientTrafficKey | .serverHandshakeKey | .serverTrafficKey => "key"
  | .serverHts => "s hs traffic"
  | .clientHts => "c hs traffic"
  | .cats => "c ap traffic"
  | .sats => "s ap traffic"
  | .fkS => "finished"
  | .ems => "exp master"
  | .rms => "res master"
  | .psk => "resumption"

/-- `get_empty_hash`. -/
def emptyHash : List UInt8 :=
  [0xe3, 0xb0, 0xc4, 0x42, 0x98, 0xfc, 0x1c, 0x14, 0x9a, 0xfb, 0xf4, 0xc8, 0x99, 0x6f, 0xb9, 0x24,
    0x27, 0xae, 0x41, 0xe4, 0x64, 0x9b, 0x93, 0x4c, 0xa4, 0x95, 0x99, 0x1b, 0x78, 0x52, 0xb8, 0x55]

theorem sha256_nil : Hkdf.sha256 [] = emptyHash := by decide +kernel

/-- `rearrange_sum_bits`. -/
def rearrangeSumBits (sum : List Bool) : List Bool := (eachByte List.reverse sum).reverse

/-- The sum leaves the addition circuit as a little-endian integer and is rearranged into the
big-endian bytes that HKDF reads. -/
theorem rearrangeSumBits_ofNat (width value : ℕ) :
    rearrangeSumBits (ofNat (8 * width) value) = ofBytes (BigEndian.ofNat width value) := by
  rw [← ofBytes_reverse_ofNat, rearrangeSumBits, reverse_eachByte_reverse, List.reverse_reverse]

/-- The circuits `hkdf_extract` (salt first) and `hkdf_expand`. -/
structure HkdfWires where
  extract : List Bool → List Bool → List Bool
  expand : List Bool → List Bool → ℕ → List Bool

/--
The wires compute HKDF for keys of one hash length and outputs of at most one hash length. The
hash circuit takes at most 8191 bits, 512 of which are the padded key; an expansion leaves 256 for
the block before.
-/
structure HkdfWires.Computes (wires : HkdfWires) : Prop where
  extract : ∀ salt ikm : List UInt8, salt.length = 32 → 512 + 8 * ikm.length ≤ 8191 →
    wires.extract (ofBytes salt) (ofBytes ikm) = ofBytes (Hkdf.extract salt ikm)
  expand : ∀ (prk info : List UInt8) (length : ℕ), prk.length = 32 →
    512 + 256 + 8 * (info.length + 1) ≤ 8191 → length ≤ 32 →
      wires.expand (ofBytes prk) (ofBytes info) length = ofBytes (Hkdf.expand prk info length)

/-- `copy_loop`: the eight low bits of a value, which is then shifted by eight. -/
def copyLoop (value : ℕ) : List Bool × ℕ := ((List.range 8).map value.testBit, value >>> 8)

/-- `hkdf_expand_label_internal`. -/
def HkdfWires.expandLabel (wires : HkdfWires) (key : List Bool) (label : String)
    (context : List Bool) (outputByteLen : ℕ) : List Bool :=
  let longLabel := ("tls13 " ++ label).toList
  -- the low byte of the length is written first, into the entries 8 to 15
  let (lowByte, remaining) := copyLoop outputByteLen
  let (highByte, _) := copyLoop remaining
  let hkdfLabel := highByte ++ lowByte ++ (copyLoop longLabel.length).1 ++
    (longLabel.flatMap fun char => (copyLoop char.toNat).1) ++
    (copyLoop (context.length / 8)).1 ++ context
  wires.expand key hkdfLabel outputByteLen

theorem copyLoop_fst (value : ℕ) : (copyLoop value).1 = ofByte (UInt8.ofNat value) :=
  (ofByte_ofNat value).symm

/-- The wires of the label are the wires of the `HkdfLabel` of RFC 8446. -/
theorem HkdfWires.expandLabel_ofBytes (wires : HkdfWires) (key : List Bool) (label : String)
    (context : List UInt8) (length : ℕ) :
    wires.expandLabel key label (ofBytes context) length =
      wires.expand key (ofBytes (KeySchedule.hkdfLabel length label context)) length := by
  have contextBytes : (ofBytes context).length / 8 = context.length := by
    rw [length_ofBytes]
    omega
  have charWires : ∀ chars : List Char,
      (chars.flatMap fun char => ofByte (UInt8.ofNat char.toNat)) =
        ofBytes (chars.map fun char => UInt8.ofNat char.toNat) := by
    intro chars
    simp [ofBytes, List.flatMap_map]
  have lengthWires : (copyLoop (length >>> 8)).1 ++ (copyLoop length).1 =
      ofBytes (BigEndian.ofNat 2 length) := by
    simp [copyLoop_fst, BigEndian.ofNat, Nat.shiftRight_eq_div_pow]
  simp only [HkdfWires.expandLabel]
  change wires.expand _
    ((copyLoop (length >>> 8)).1 ++ (copyLoop length).1 ++ _ ++ _ ++ _ ++ _) _ = _
  rw [lengthWires]
  simp only [copyLoop_fst, charWires, contextBytes, KeySchedule.hkdfLabel, ofBytes_append,
    ofBytes_cons, List.append_assoc]

theorem HkdfWires.Computes.expandLabel {wires : HkdfWires} (computes : wires.Computes)
    {secret : List UInt8} (isSecret : secret.length = 32) {label : String}
    (shortLabel : label.length ≤ 249) {context : List UInt8} (shortContext : context.length ≤ 255)
    {length : ℕ} (oneBlock : length ≤ 32) :
    wires.expandLabel (ofBytes secret) label (ofBytes context) length =
      ofBytes (KeySchedule.expandLabel secret label context length) := by
  rw [wires.expandLabel_ofBytes]
  apply computes.expand _ _ _ isSecret _ oneBlock
  rw [KeySchedule.length_hkdfLabel]
  omega

/-- Wires that decode their bytes, compute HKDF and encode the result. -/
def HkdfWires.onBytes : HkdfWires where
  extract salt ikm :=
    ofBytes (Hkdf.extract (toBytes (salt.length / 8) salt) (toBytes (ikm.length / 8) ikm))
  expand prk info length :=
    ofBytes (Hkdf.expand (toBytes (prk.length / 8) prk) (toBytes (info.length / 8) info) length)

theorem HkdfWires.computes_onBytes : HkdfWires.onBytes.Computes := by
  have decoded : ∀ bytes : List UInt8,
      toBytes ((ofBytes bytes).length / 8) (ofBytes bytes) = bytes := by
    intro bytes
    apply toBytes_ofBytes
    rw [length_ofBytes]
    omega
  constructor
  · intro salt ikm _ _
    simp only [HkdfWires.onBytes, decoded]
  · intro prk info length _ _ _
    simp only [HkdfWires.onBytes, decoded]

section Masks

/-- The `k`-th 16 bytes of a mask. -/
def maskPart {size : ℕ} (mask : Fin size → UInt8) (k : ℕ) : Block :=
  field (List.ofFn mask) (16 * k) 16

variable {secret key out : List UInt8} {offset : ℕ}

theorem slice_mask {size : ℕ} (mask : Fin size → UInt8) {start : ℕ} (whole : 16 ∣ start)
    (inMask : start + 16 ≤ size) :
    slice (List.ofFn mask) start 16 = List.ofFn (maskPart mask (start / 16)) := by
  rw [maskPart, Nat.mul_div_cancel' whole, ofFn_field]
  rwa [List.length_ofFn]

theorem length_proverPart {size : ℕ} (verifier : Bool) (part : Fin size → UInt8) :
    (if verifier then List.replicate size 0 else List.ofFn part).length = size := by
  cases verifier with
  | false => exact List.length_ofFn
  | true => exact List.length_replicate

theorem append_unmasked (low high : Block) (inOut : offset + 32 ≤ out.length)
    (secretLength : secret.length = 32)
    (maskedLow : slice out offset 16 = xorBytes (List.ofFn low) (slice secret 0 16))
    (maskedHigh : slice out (offset + 16) 16 = xorBytes (List.ofFn high) (slice secret 16 16)) :
    List.ofFn (fun i => field out offset 16 i ^^^ low i) ++
      List.ofFn (fun i => field out (offset + 16) 16 i ^^^ high i) = secret := by
  have halfLength : ∀ start, start ≤ 16 → (slice secret start 16).length = 16 := by
    intro start inSecret
    rw [length_slice]
    omega
  rw [ofFn_field_xor low (by omega) (halfLength 0 (by omega)) maskedLow,
    ofFn_field_xor high (by omega) (halfLength 16 le_rfl) maskedHigh]
  simp only [slice, List.drop_zero]
  rw [List.take_of_length_le (l := secret.drop 16) (by simp [secretLength]),
    List.take_append_drop]

/-- The mask of the prover and the masked key of the verifier are shares of the key. -/
theorem xor_maskedKey (mask : Block) (inOut : offset + 16 ≤ out.length)
    (keyLength : key.length = 16)
    (masked : slice out offset 16 = xorBytes (List.ofFn mask) key) :
    List.ofFn (fun i => mask i ^^^ field out offset 16 i) = key := by
  rw [ofFn_xor, ofFn_field _ inOut, masked]
  apply xorBytes_cancel_left
  rw [List.length_ofFn, keyLength]

end Masks

end PracticalCrypto.Surf
