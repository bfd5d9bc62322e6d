import PracticalCrypto.Surf.Server.Io

/-!
# Joint encryption and attestation on the verifier

This file embeds the handlers of `nodes/Server.cpp` that run after the
handshake: `encrypt_blocks`, `make_gcm_tag`, `verify_gcm_tag`,
`derive_keystream_blocks`, `read_key_commitment`, `release_key`,
`rotate_key_op`, and the two loops that dispatch to them,
`read_header_draining_encryption` and `attest`.

The loops take the number of headers they may read as an argument. Each header
is at least one byte, so one more than the length of the received stream is
never used up.
-/

namespace PracticalCrypto.Surf

/-- `SSL3_RT_HEADER_LENGTH`. -/
def recordHeaderLength : ℕ := 5

/-- `MaskConstants::kNumMasks`. -/
def numMasks : ℕ := 1088

/-- The block whose counter a slot of the encryption circuit uses: padding repeats the last one. -/
def tailSource (nblocks idx : ℕ) : ℕ := if idx < nblocks then idx else nblocks - 1

def batchesOf (nblocks : ℕ) : ℕ := (nblocks + 15) / 16

namespace Server

open BlockMap

variable (env : Environment)

def encryptCounters (iv : Iv) (seq : UInt64) (nblocks batch : ℕ) : Fin 16 → Block := fun j =>
  ctrBlock iv seq (UInt32.ofNat (tailSource nblocks (batch * 16 + j)) + 2)

def encryptInput (session : Session) (seq : UInt64) (nblocks batch : ℕ) : AesEncBatchIn where
  key := session.clientKeyShare
  ctr := encryptCounters session.clientIv seq nblocks batch
  -- only the prover knows the request
  pt := fun _ _ => 0

def encryptBatch (seq : UInt64) (nblocks batch : ℕ) : Handler Server Unit := do
  let server ← Handler.get
  let input := encryptInput server.session seq nblocks batch
  record (.aesEncBatch seq input.ctr)
  let now ← tick
  let out ← Handler.ofOption (env.aesEncBatch now input)
  Handler.require (out.ok = true)
  modifySession fun session =>
    { session with
      encryptedCt := session.encryptedCt.take (batch * 16) ++ List.ofFn out.ct ++
        session.encryptedCt.drop (batch * 16 + 16) }

def encryptBlocks : Handler Server Unit := do
  requireCircuit .aesEnc
  let seq ← readU64
  let server ← Handler.get
  Handler.require (seq ∉ server.session.encryptedSeqs)
  let ptLen ← readU32
  Handler.require (ptLen ≠ 0 ∧ ptLen.toNat ≤ maxPlainLength)
  let nblocks := blocksOf ptLen.toNat
  let nbatches := batchesOf nblocks
  modifySession fun session =>
    { session with encryptedCt := List.replicate (nbatches * 16) fun _ => 0 }
  Handler.forEach (encryptBatch env seq nblocks) (List.range nbatches)
  modifySession fun session =>
    { session with
      encryptCtLen := ptLen.toNat
      encryptedSeqs := session.encryptedSeqs ++ [seq]
      log := .encrypted seq :: session.log }

def storedCiphertext (session : Session) (length : ℕ) : Bytes :=
  (session.encryptedCt.flatMap List.ofFn).take length

def makeGcmTag : Handler Server Unit := do
  requireCircuit .gcmTag
  let aadLen ← readU16
  Handler.require (aadLen.toNat = recordHeaderLength)
  let aad ← readExact aadLen.toNat
  modifySession fun session => { session with encryptAad := aad }
  let ctLen ← readU32
  let server ← Handler.get
  let session := server.session
  Handler.require (ctLen.toNat = session.encryptCtLen ∧ session.encryptedCt ≠ [])
  let ct := storedCiphertext session ctLen.toNat
  match session.encryptedSeqs.getLast? with
  -- `encrypted_seqs.back()` of an empty vector
  | none => Handler.abort
  | some seq => do
      let tagShare ← Handler.ofOption (ghashShare env.ghash session.clientGcmPowers aad ct)
      record (.tagCircuit seq aad ct)
      let now ← tick
      let out ← Handler.ofOption (env.gcmTag now
        { keyShare := session.clientKeyShare, iv := ctrBlock session.clientIv seq 1, tagShare,
          maskOrUnused := fun _ => 0 })
      Handler.require (out.cheated = false)

/-- `J0` as `verify_gcm_tag` builds it: the IV, the sequence number xored in, and a final 1. -/
def verifyIv (serverIv : Iv) (seq : UInt64) : Block := fun i =>
  if inNonce : i.val < 12 then
    serverIv ⟨i.val, inNonce⟩ ^^^
      (if 4 ≤ i.val then (seq >>> UInt64.ofNat (8 * (11 - i.val))).toUInt8 else 0)
  else if i.val = 15 then 1 else 0

/-- What `verify_gcm_tag` does with an accepted record. -/
def attestRecord (seq : UInt64) (ciphertext : Bytes) (session : Session) : Session :=
  { session with
    attestedCt :=
      if session.mode.isCapture ∧ session.retainCt then session.attestedCt ++ [(seq, ciphertext)]
      else session.attestedCt
    verifiedSeqs := session.verifiedSeqs ++ [seq]
    log := .tagPassed seq ciphertext :: session.log }

def verifyGcmTag : Handler Server Unit := do
  let server ← Handler.get
  let capture := server.session.mode.isCapture
  Handler.require
    (capture = true → server.session.keyCommitted = true ∧ server.session.keyReleased = false)
  let seq ← readU64
  let aadLen ← readU16
  Handler.require (aadLen.toNat = recordHeaderLength)
  let aad ← readExact aadLen.toNat
  let ctLen ← readU32
  Handler.require (ctLen ≠ 0 ∧ ctLen.toNat ≤ maxPlainLength + 1)
  let ciphertext ← readExact ctLen.toNat
  let serverTag ← readExact 16
  let tagShare ← Handler.ofOption (ghashShare env.ghash server.session.serverGcmPowers aad ciphertext)
  record (.verifyRequest seq)
  requireCircuit .gcmVfy
  let now ← tick
  let out ← Handler.ofOption (env.gcmVfy now
    { key := server.session.serverKeyShare, iv := verifyIv server.session.serverIv seq, tagShare,
      serverTag, commitment := if capture then server.session.keyCommitment else [] })
  Handler.require (out.cheated = false ∧ (capture = true → out.keyOpened = true))
  -- a rejected tag is an answer in the ROTATE mode and an error in the others
  if out.tagPassed = false then
    if server.session.mode = .rotate then writeSingleHeader env .tagReject else Handler.fail
  else do
    modifySession (attestRecord seq ciphertext)
    if server.session.mode = .rotate then writeSingleHeader env .tagOk else pure ()

def readRecordDims : Handler Server RecordDims := do
  let bytes ← readExact 12
  let ctLen := UInt32.ofNat (BigEndian.toNat (bytes.drop 8))
  Handler.require (ctLen ≠ 0 ∧ ctLen.toNat ≤ maxPlainLength + 1)
  pure { seq := UInt64.ofNat (BigEndian.toNat (bytes.take 8)), ctLen }

/-- One slot of a keystream batch; padding has a counter with the top bit set. -/
def keystreamSlot (records : List RecordDims) (nblocks idx : ℕ) : Option Slot :=
  if idx < nblocks then
    (resolve records idx).map fun found => ⟨found.1, found.2, false⟩
  else
    (resolve records (nblocks - 1)).map fun found =>
      ⟨found.1, 0x80000000 ||| UInt32.ofNat idx, true⟩

def keystreamBatch (records : List RecordDims) (nblocks batch : ℕ) : Handler Server Unit := do
  let preprocAt ← libraryRequest env
  Handler.require (env.preproc preprocAt .ksBlock = true)
  let slots ← Handler.ofOption
    ((List.range 16).mapM fun j => keystreamSlot records nblocks (batch * 16 + j))
  let server ← Handler.get
  record (.keystreamBatch slots)
  let now ← tick
  Handler.require (env.ksBatch now
    { key := server.session.serverKeyShare
      commitment := server.session.maskCommitment
      ctr := slots.map fun slot => ctrBlock server.session.serverIv slot.seq slot.counter } = true)

def deriveKeystreamBlocks : Handler Server Unit := do
  requireCircuit .ksBlock
  let nrec ← readU32
  Handler.require (nrec ≠ 0 ∧ nrec.toNat ≤ numMasks)
  let records ← Handler.collect (fun _ => readRecordDims) (List.range nrec.toNat)
  record (.keystreamRequest records)
  let server ← Handler.get
  -- the sequence numbers are looked up; the lengths stay what the prover sent
  Handler.require (∀ entry ∈ records, entry.seq ∈ server.session.verifiedSeqs)
  let nblocks := totalBlocks records
  Handler.forEach (keystreamBatch env records nblocks) (List.range (batchesOf nblocks))

def readKeyCommitment : Handler Server Unit := do
  let server ← Handler.get
  Handler.require (server.session.mode.isCapture = true ∧ server.session.keyCommitted = false ∧
    server.session.keyReleased = false)
  let commitment ← readExact 32
  modifySession fun session =>
    { session with
      keyCommitment := commitment
      keyCommitted := true
      log := .keyCommitted :: session.log }

def releaseKey : Handler Server Unit := do
  let server ← Handler.get
  Handler.require (server.session.mode.isCapture = true ∧ server.session.keyCommitted = true ∧
    server.session.keyReleased = false)
  -- the flag is set first, so a share whose write failed is not sent again
  modifySession fun session =>
    { session with
      keyReleased := true
      log := .keyWritten session.serverKeyShare :: session.log }
  write env (List.ofFn server.session.serverKeyShare)

def installRotated (out : RotateCircuitOut) : Direction → Session → Session
  | .client, session =>
      { session with
        catsShare := out.nextShare
        clientKeyShare := out.keyShare
        clientIv := out.iv
        log := .rotateCircuit .client :: session.log }
  | .server, session =>
      { session with
        satsShare := out.nextShare
        serverKeyShare := out.keyShare
        serverIv := out.iv
        log := .rotateCircuit .server :: session.log }

/-- The end of `rotate_key_op`: sequence numbers restart under the new key. -/
def restartSequence (powers : Bytes) : Direction → Session → Session
  | .client, session =>
      { session with
        clientGcmPowers := powers
        encryptedSeqs := []
        encryptedCt := []
        encryptCtLen := 0
        log := .rotated .client :: session.log }
  | .server, session =>
      { session with
        serverGcmPowers := powers
        verifiedSeqs := []
        keyCommitted := false
        keyReleased := false
        keyCommitment := List.replicate 32 0
        epoch := session.epoch + 1
        log := .rotated .server :: session.log }

/-- `make_gcm_share_for`. A multiplication that the prover reports as inconsistent aborts. -/
def makeGcmShareFor (keyShare : Block) : Handler Server Bytes := do
  let now ← libraryRequest env
  if env.gcmConsistent now = true then Handler.ofOption (env.gcmShare now keyShare)
  else Handler.abort

variable {env} in
theorem keeps_makeGcmShareFor {rel : Server → Server → Prop} [IoBlind rel] (keyShare : Block) :
    Handler.Keeps rel (makeGcmShareFor env keyShare) :=
  Handler.keeps_bind keeps_libraryRequest fun _ =>
    Handler.keeps_ite (Handler.keeps_ofOption _) Handler.keeps_abort

def rotateKeyOp : Handler Server Unit := do
  let server ← Handler.get
  Handler.require (server.session.mode = .rotate)
  requireCircuit .rotate
  requireCircuit .gcm
  let bytes ← readExact 1
  let direction ← Handler.ofOption
    (if bytes = [0] then some Direction.client
      else if bytes = [1] then some Direction.server else none)
  Handler.require (direction = .server → server.session.keyReleased = true)
  let now ← tick
  let out ← Handler.ofOption (env.rotate now
    (match direction with
      | .client => server.session.catsShare
      | .server => server.session.satsShare))
  modifySession (installRotated out direction)
  let powers ← makeGcmShareFor env out.keyShare
  modifySession (restartSequence powers direction)

/-- The handler of a header in both dispatching loops. -/
def dispatch : MessageHeader → Option (Handler Server Unit)
  | .aesEnc => some (encryptBlocks env)
  | .gcmTag => some (makeGcmTag env)
  | .gcmVerify => some (verifyGcmTag env)
  | .ksDerive => some (deriveKeystreamBlocks env)
  | .keyCommit => some readKeyCommitment
  | .keyRelease => some (releaseKey env)
  | .rotateKey => some (rotateKeyOp env)
  | _ => none

/-- `read_header_draining_encryption`: the first header that is not dispatched is returned. -/
def readHeaderDrainingEncryption : ℕ → Handler Server MessageHeader
  | 0 => Handler.fail
  | fuel + 1 => do
      let header ← readSingleHeader
      record (.message header)
      match dispatch env header with
      | some handler => do
          handler
          readHeaderDrainingEncryption fuel
      | none => pure header

def attest : ℕ → Handler Server Unit
  | 0 => Handler.fail
  | fuel + 1 => do
      let header ← readSingleHeader
      record (.message header)
      match dispatch env header with
      | some handler => do
          handler
          attest fuel
      | none => Handler.require (header = .stop)

/-- Both loops read the same messages; `attest` accepts only `STOP` as the last one. -/
theorem attest_eq_drain (fuel : ℕ) :
    attest env fuel =
      readHeaderDrainingEncryption env fuel >>= fun header => Handler.require (header = .stop) := by
  induction fuel with
  | zero => rfl
  | succ fuel ih =>
      simp only [attest, readHeaderDrainingEncryption, bind_assoc]
      congr 1
      funext header
      congr 1
      funext _
      cases dispatch env header with
      | none => simp
      | some handler => simp [ih]

end Server

end PracticalCrypto.Surf
