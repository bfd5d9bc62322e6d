import PracticalCrypto.Surf.Server.Io

/-!
# The state of the SURF prover

This file embeds the members of `SSL` (`surf-impl/src/boringssl/ssl/internal.h`)
that the prover's side of joint encryption and of the release of captured
records uses. As for the verifier, everything the prover does not compute itself
is answered by an `Environment`, which is asked with the number of the request.
-/

namespace PracticalCrypto.Surf.Prover

open Handler

/-- `GCMVfyCommitCircuitIn`, without `d_k`, which stays zero on this side. -/
structure GcmVfyIn where
  key : Block
  iv : Block
  tagShare : Block
  serverTag : Block
  commitRand : Block

/-- The members that the handshake layer may change when it handles post-handshake messages, and what
it writes. -/
structure HandshakeEffect where
  surfKeyCommitted : Bool
  surfKeyReleased : Bool
  clientKeyShare : Block
  serverKeyShare : Block
  clientIv : Block
  serverIv : Block
  satsShare : Block
  cgcmShare : Bytes
  sgcmShare : Bytes
  readSequence : UInt64
  writeSequence : UInt64
  sent : List Bytes

/-- The answers to what the prover does not compute itself. -/
structure Environment where
  write : ℕ → Bool
  read : ℕ → (count : ℕ) → Option (Fin count → UInt8)
  aesEncBatch : ℕ → AesEncBatchIn → Option AesEncBatchOut
  gcmTag : ℕ → GcmTagIn → Option GcmTagOut
  gcmVfy : ℕ → GcmVfyIn → Option GcmVfyOut
  rotate : ℕ → Block → Option RotateCircuitOut
  /-- `make_gcm_share_for`: shares of the powers of the hash key. -/
  gcmShare : ℕ → Block → Option Bytes
  aes : Block → Block → Option Block
  /-- The field arithmetic of `GHash::share`. -/
  ghash : Bytes → Bytes → Bytes → Block
  /-- `Util::generate_random_bytes` and `RAND_bytes`. -/
  randomBytes : ℕ → Block
  /-- `tls_append_handshake_data` and `tls13_post_handshake` on the messages in these bytes, for these
  members. -/
  postHandshake : ℕ → HandshakeEffect → Bytes → Option HandshakeEffect

/-- `SSL::SurfRecord`: a captured record without its header. -/
structure SurfRecord where
  ciphertext : Bytes
  tag : Block
  seq : UInt64

/-- What the two parties rotate at the end of an epoch: the prover's part of it. -/
structure KeyMaterial where
  serverKeyShare : Block
  serverIv : Block
  satsShare : Block
  sgcmShare : Bytes
deriving DecidableEq

/--
The members of `SSL` that the modelled functions use, followed by a history that
none of them reads: the messages written to the verifier, the inputs given to the
encryption circuit, the keys made up of a released share with the part of the prover,
the records opened with their index in `surfRecords`, and the plaintexts of each epoch
that `rotate_surf_release_epoch` has closed.
-/
structure Ssl where
  verifier : Bool
  aesEncCircuit : Bool
  gcmTagCircuit : Bool
  gcmVfyCircuit : Bool
  rotateCircuit : Bool
  gcmCircuit : Bool
  surfMode : Mode
  surfTrueMode : Bool
  surfKeyCommitted : Bool
  surfKeyReleased : Bool
  surfKeyCommitRand : Block
  surfFullServerKey : Block
  clientKeyShare : Block
  serverKeyShare : Block
  clientIv : Block
  serverIv : Block
  satsShare : Block
  cgcmShare : Bytes
  sgcmShare : Bytes
  readSequence : UInt64
  writeSequence : UInt64
  surfRecords : List SurfRecord
  surfEpochStart : ℕ
  surfEpoch : UInt32
  sent : List Bytes
  encInputs : List AesEncBatchIn
  released : List (KeyMaterial × Block)
  opened : List (ℕ × Bytes)
  closedEpochs : List (List Bytes)
  clock : ℕ

/-- An `SSL` of the given mode that has a verifier and all circuits, and no keys yet. -/
def Ssl.initial (mode : Mode) : Ssl where
  verifier := true
  aesEncCircuit := true
  gcmTagCircuit := true
  gcmVfyCircuit := true
  rotateCircuit := true
  gcmCircuit := true
  surfMode := mode
  surfTrueMode := mode.isCapture
  surfKeyCommitted := false
  surfKeyReleased := false
  surfKeyCommitRand := fun _ => 0
  surfFullServerKey := fun _ => 0
  clientKeyShare := fun _ => 0
  serverKeyShare := fun _ => 0
  clientIv := fun _ => 0
  serverIv := fun _ => 0
  satsShare := fun _ => 0
  cgcmShare := []
  sgcmShare := []
  readSequence := 0
  writeSequence := 0
  surfRecords := []
  surfEpochStart := 0
  surfEpoch := 0
  sent := []
  encInputs := []
  released := []
  opened := []
  closedEpochs := []
  clock := 0

def Ssl.keyMaterial (ssl : Ssl) : KeyMaterial where
  serverKeyShare := ssl.serverKeyShare
  serverIv := ssl.serverIv
  satsShare := ssl.satsShare
  sgcmShare := ssl.sgcmShare

variable (env : Environment)

section Model

def tick : Handler Ssl ℕ := do
  let ssl ← Handler.get
  Handler.modify fun ssl => { ssl with clock := ssl.clock + 1 }
  pure ssl.clock

def sslWrite (message : Bytes) : Handler Ssl Unit := do
  let now ← tick
  Handler.require (env.write now = true)
  Handler.modify fun ssl => { ssl with sent := ssl.sent ++ [message] }

def readExactBlocking (count : ℕ) : Handler Ssl (Fin count → UInt8) := do
  let now ← tick
  Handler.ofOption (env.read now count)

/-- The header of a record that carries `ptLen` bytes and a tag, which is its additional data. -/
def recordHeader (ptLen : ℕ) : Bytes :=
  let recordLen := ptLen + 16
  [23, 3, 3, UInt8.ofNat (recordLen / 256), UInt8.ofNat recordLen]

/-- The prover keeps the 12-byte IV at offset 4 of a 16-byte array. -/
def staticIv (iv : Block) : Iv := fun i => iv ⟨i.val + 4, by omega⟩

end Model

section Rules

variable {env : Environment} {ssl : Ssl}

theorem ensures_tick :
    Ensures tick (fun now after => now = ssl.clock ∧ after = { ssl with clock := ssl.clock + 1 })
      ssl :=
  Ensures.get_bind (Ensures.modify_bind (Ensures.pure ⟨rfl, rfl⟩))

theorem ensures_sslWrite (message : Bytes) :
    Ensures (sslWrite env message)
      (fun _ after =>
        after = { ssl with sent := ssl.sent ++ [message], clock := ssl.clock + 1 }) ssl := by
  refine Ensures.bind (ensures_tick.mono ?_)
  rintro _ _ ⟨rfl, rfl⟩
  refine Ensures.require_bind fun _ => ?_
  exact Ensures.modify rfl

/--
Every write and every circuit succeeds, AES gives zero blocks, and the verifier
sends `TAG_OK` where one byte is read and zeros otherwise.
-/
def Environment.cooperative : Environment where
  write := fun _ => true
  read := fun _ count => some fun _ => if count = 1 then MessageHeader.toByte .tagOk else 0
  aesEncBatch := fun _ input => some { ct := input.ctr, ok := true }
  gcmTag := fun _ input => some { cheated := false, tag := input.tagShare }
  gcmVfy := fun _ _ => some { tagPassed := true, cheated := false, keyOpened := true }
  rotate := fun _ share => some { nextShare := share, keyShare := share, iv := fun _ => 0 }
  gcmShare := fun _ _ => some []
  aes := fun _ _ => some fun _ => 0
  ghash := fun _ _ _ _ => 0
  randomBytes := fun _ _ => 0
  postHandshake := fun _ _ _ => none

theorem returns_tick : Returns tick ssl :=
  Returns.get_bind (Returns.modify_bind Returns.pure)

theorem returns_sslWrite (writes : ∀ now, env.write now = true) (message : Bytes) :
    Returns (sslWrite env message) ssl := by
  refine returns_tick.bind fun _ _ _ => ?_
  exact Returns.require_bind (writes _) Returns.modify

end Rules

end PracticalCrypto.Surf.Prover
