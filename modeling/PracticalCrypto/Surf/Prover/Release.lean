import PracticalCrypto.Surf.Prover.State
import PracticalCrypto.Surf.Server.Attestation

/-!
# Release of captured records

This file embeds the prover's side of the TRUE and ROTATE modes in
`surf-impl/src/ssl/ThreePartyHandshake.cpp`: the captured records are submitted
for joint tag verification, the verifier's key share is fetched, the records are
opened and their application data is handed out. `captureRecord` is the branch of
`tls_open_record` (`boringssl/ssl/tls_record.cc`) that captures them.

Failures to allocate memory are left out.
-/

namespace PracticalCrypto.Surf.Prover

open BlockMap Handler

variable (env : Environment)

section Commitment

/-- `kHiroseC`. -/
def hiroseConstant : Block := fun i => if i = 0 then 0x63 else if i = 15 then 1 else 0

def hiroseCommitHost (aes : Block → Block → Option Block) (r b : Block) : Option Bytes := do
  let bc : Block := fun i => b i ^^^ hiroseConstant i
  let g ← aes r b
  let h ← aes r bc
  some ((List.ofFn fun i => g i ^^^ b i) ++ List.ofFn fun i => h i ^^^ bc i)

def surfSendKeyCommitment : Handler Ssl Unit := do
  let now ← tick
  Handler.modify fun ssl => { ssl with surfKeyCommitRand := env.randomBytes now }
  let ssl ← Handler.get
  let digest ← Handler.ofOption
    (hiroseCommitHost env.aes ssl.surfKeyCommitRand ssl.serverKeyShare)
  sslWrite env (MessageHeader.toByte .keyCommit :: digest)
  Handler.modify fun ssl => { ssl with surfKeyCommitted := true }

/-- The commitment that `verify_record_tag` sends before the first record in a capture mode. -/
def commitBeforeFirst : Handler Ssl Unit := do
  let ssl ← Handler.get
  if ssl.surfTrueMode = true ∧ ssl.surfKeyCommitted = false then surfSendKeyCommitment env
  else pure ()

end Commitment

section Verification

def recordAad (ciphertext : Bytes) : Bytes := recordHeader ciphertext.length

/-- `GCM_VERIFY || u64 seq || u16 aad_len || aad || u32 ct_len || ct || tag`. -/
def gcmVerifyMessage (captured : SurfRecord) : Bytes :=
  let aad := recordAad captured.ciphertext
  MessageHeader.toByte .gcmVerify ::
    (BigEndian.ofNat 8 captured.seq.toNat ++ BigEndian.ofNat 2 aad.length ++ aad ++
      BigEndian.ofNat 4 captured.ciphertext.length ++ captured.ciphertext ++
      List.ofFn captured.tag)

def gcmVfyInput (ssl : Ssl) (captured : SurfRecord) (tagShare : Block) : GcmVfyIn where
  key := ssl.serverKeyShare
  iv := Server.verifyIv (staticIv ssl.serverIv) captured.seq
  tagShare := tagShare
  serverTag := captured.tag
  commitRand := if ssl.surfTrueMode then ssl.surfKeyCommitRand else fun _ => 0

/-- The verdict on a record in the ROTATE mode, where a rejected tag ends an epoch. -/
def readVerdict (out : GcmVfyOut) (wantsVerdict : Bool) : Handler Ssl Bool := do
  let ack ← readExactBlocking env 1
  Handler.require (out.cheated = false ∧ out.keyOpened = true)
  if ack 0 = MessageHeader.toByte .tagOk then pure true
  else if ack 0 = MessageHeader.toByte .tagReject ∧ wantsVerdict = true then pure false
  else Handler.fail

/--
`verify_record_tag`; the value is what `*tag_ok` holds afterwards, and
`wantsVerdict` says whether the caller has passed the pointer.
-/
def verifyRecordTag (recordIndex : ℕ) (wantsVerdict : Bool) : Handler Ssl Bool := do
  let ssl ← Handler.get
  Handler.require (ssl.verifier = true ∧ ssl.gcmVfyCircuit = true)
  let captured ← Handler.ofOption ssl.surfRecords[recordIndex]?
  commitBeforeFirst env
  sslWrite env (gcmVerifyMessage captured)
  let ssl ← Handler.get
  let tagShare ← Handler.ofOption
    (ghashShare env.ghash ssl.sgcmShare (recordAad captured.ciphertext) captured.ciphertext)
  let now ← tick
  let out ← Handler.ofOption (env.gcmVfy now (gcmVfyInput ssl captured tagShare))
  if ssl.surfTrueMode = true ∧ ssl.surfMode = .rotate then readVerdict env out wantsVerdict
  else do
    Handler.require (out.tagPassed = true ∧ out.cheated = false ∧
      (ssl.surfTrueMode = true → out.keyOpened = true))
    pure true

def verifyUntilRejected : ℕ → ℕ → Handler Ssl ℕ
  | 0, stop => pure stop
  | remaining + 1, stop => do
      let ok ← verifyRecordTag env stop true
      if ok = true then verifyUntilRejected remaining (stop + 1) else pure stop

/-- The body of the loop of `rotate_surf_release_epoch`: every record must verify. -/
def verifyInEpoch (recordIndex : ℕ) : Handler Ssl Unit := do
  let ok ← verifyRecordTag env recordIndex true
  Handler.require (ok = true)

end Verification

section Opening

def openRecord (aes : Block → Block → Option Block) (key iv : Block) (captured : SurfRecord) :
    Option Bytes := do
  let ctLen := captured.ciphertext.length
  let chunks ← (List.range (blocksOf ctLen)).mapM fun idx => do
    let (seq, counter) ← resolve [⟨captured.seq, UInt32.ofNat ctLen⟩] idx
    let ks ← aes key (ctrBlock (staticIv iv) seq counter)
    some (List.zipWith (· ^^^ ·) ((captured.ciphertext.drop (idx * 16)).take 16) (List.ofFn ks))
  some chunks.flatten

def Ssl.opens (ssl : Ssl) (recordIndex : ℕ) : Option Bytes := do
  let captured ← ssl.surfRecords[recordIndex]?
  openRecord env.aes ssl.surfFullServerKey ssl.serverIv captured

def trueSurfOpenRecord (recordIndex : ℕ) : Handler Ssl Bytes := do
  let ssl ← Handler.get
  let plaintext ← Handler.ofOption (ssl.opens env recordIndex)
  Handler.modify fun ssl => { ssl with opened := ssl.opened ++ [(recordIndex, plaintext)] }
  pure plaintext

/-- The server's key, once the verifier has sent its share. -/
def Ssl.jointServerKey (ssl : Ssl) (kv : Block) : Block := fun i => ssl.serverKeyShare i ^^^ kv i

/-- `surf_release_epoch_key`; `true_surf_release` has the same code in its body. -/
def surfReleaseEpochKey : Handler Ssl Unit := do
  sslWrite env [MessageHeader.toByte .keyRelease]
  let kv ← readExactBlocking env 16
  Handler.modify fun ssl =>
    { ssl with
      surfFullServerKey := ssl.jointServerKey kv
      surfKeyReleased := true
      released := ssl.released ++ [(ssl.keyMaterial, ssl.jointServerKey kv)] }

end Opening

section Classification

def unpaddedLength (plaintext : Bytes) : ℕ → ℕ
  | 0 => 0
  | n + 1 => if plaintext.getD n 0 = 0 then unpaddedLength plaintext n else n + 1

/-- Whether a plaintext has this content type, this length, and starts with these bytes. -/
def surfIs (contentType : UInt8) (length : ℕ) (start plaintext : Bytes) : Bool :=
  let n := unpaddedLength plaintext plaintext.length
  decide (n ≠ 0 ∧ plaintext.getD (n - 1) 0 = contentType ∧ n - 1 = length ∧
    plaintext.take start.length = start)

def surfIsCloseNotify (plaintext : Bytes) : Bool := surfIs 21 2 [1, 0] plaintext

def surfIsKeyUpdate (plaintext : Bytes) : Bool := surfIs 22 5 [24, 0, 0, 1] plaintext

def applicationBytes (plaintext : Bytes) : Bytes :=
  -- the content type is read from the last byte, without stepping back over padding
  if plaintext.getLast? = some 23 then plaintext.dropLast else []

def totalBytes (opened : List Bytes) : ℕ :=
  (opened.map fun plaintext =>
    if plaintext.getLast? = some 23 then plaintext.length - 1 else 0).sum

/-- The checks on the end of the stream, and the output with its size check. -/
def assemble (requireCloseNotify : Bool) (opened : List Bytes) : Handler Ssl Bytes := do
  Handler.require (∀ plaintext ∈ opened.dropLast, surfIsCloseNotify plaintext = false)
  Handler.require
    (requireCloseNotify = true → ∃ last ∈ opened.getLast?, surfIsCloseNotify last = true)
  let out := opened.flatMap applicationBytes
  Handler.require (out.length = totalBytes opened)
  pure out

/-- The members as they are, with nothing written. -/
def Ssl.handshakeMembers (ssl : Ssl) : HandshakeEffect where
  surfKeyCommitted := ssl.surfKeyCommitted
  surfKeyReleased := ssl.surfKeyReleased
  clientKeyShare := ssl.clientKeyShare
  serverKeyShare := ssl.serverKeyShare
  clientIv := ssl.clientIv
  serverIv := ssl.serverIv
  satsShare := ssl.satsShare
  cgcmShare := ssl.cgcmShare
  sgcmShare := ssl.sgcmShare
  readSequence := ssl.readSequence
  writeSequence := ssl.writeSequence
  sent := []

def HandshakeEffect.install (effect : HandshakeEffect) (ssl : Ssl) : Ssl :=
  { ssl with
    surfKeyCommitted := effect.surfKeyCommitted
    surfKeyReleased := effect.surfKeyReleased
    clientKeyShare := effect.clientKeyShare
    serverKeyShare := effect.serverKeyShare
    clientIv := effect.clientIv
    serverIv := effect.serverIv
    satsShare := effect.satsShare
    cgcmShare := effect.cgcmShare
    sgcmShare := effect.sgcmShare
    readSequence := effect.readSequence
    writeSequence := effect.writeSequence
    sent := ssl.sent ++ effect.sent }

/-- Feed a decrypted handshake record back into the handshake layer. -/
def replay (plaintext : Bytes) : Handler Ssl Unit :=
  if plaintext.getLast? = some 22 then do
    let now ← tick
    let ssl ← Handler.get
    let effect ← Handler.ofOption (env.postHandshake now ssl.handshakeMembers plaintext.dropLast)
    Handler.modify effect.install
  else pure ()

end Classification

section Release

def trueSurfRelease (requireCloseNotify : Bool) : Handler Ssl Bytes := do
  let ssl ← Handler.get
  Handler.require
    (ssl.verifier = true ∧ ssl.surfTrueMode = true ∧ ssl.surfKeyReleased = false)
  let indices := List.range ssl.surfRecords.length
  let _ ← Handler.collect (fun recordIndex => verifyRecordTag env recordIndex false) indices
  surfReleaseEpochKey env
  let opened ← Handler.collect (trueSurfOpenRecord env) indices
  let out ← assemble requireCloseNotify opened
  Handler.forEach (replay env) opened
  pure out

/-- `rotate_traffic_keys` with `evp_aead_open`. The 12-byte IV is stored at offset 4. -/
def rotateServerKeys : Handler Ssl Unit := do
  let ssl ← Handler.get
  Handler.require (ssl.verifier = true ∧ ssl.surfMode = .rotate ∧ ssl.rotateCircuit = true ∧
    ssl.gcmCircuit = true)
  sslWrite env [MessageHeader.toByte .rotateKey, 1]
  let rotatedAt ← tick
  let out ← Handler.ofOption (env.rotate rotatedAt ssl.satsShare)
  Handler.modify fun ssl =>
    { ssl with
      satsShare := out.nextShare
      serverKeyShare := out.keyShare
      serverIv := fun i => if late : 4 ≤ i.val then out.iv ⟨i.val - 4, by omega⟩ else ssl.serverIv i }
  let sharedAt ← tick
  let powers ← Handler.ofOption (env.gcmShare sharedAt out.keyShare)
  Handler.modify fun ssl =>
    { ssl with sgcmShare := powers, surfKeyCommitted := false, surfKeyReleased := false }

/-- The sequence numbers of the records from `stop` on restart at 0. -/
def renumber (stop : ℕ) (records : List SurfRecord) : List SurfRecord :=
  records.mapIdx fun j captured =>
    if stop ≤ j then { captured with seq := UInt64.ofNat (j - stop) } else captured

/-- The plaintexts of an epoch that ends with a `KeyUpdate`, which is marked. -/
def markBoundary (plaintexts : List Bytes) : List (Bytes × Bool) :=
  plaintexts.dropLast.map (·, false) ++ plaintexts.getLast?.toList.map (·, true)

/--
The loop of `rotate_surf_release`: the epochs from record `start` on, after the
marked plaintexts of the earlier ones. Each epoch has a record, so `n + 1` rounds
are enough.
-/
def releaseEpochs (n : ℕ) : ℕ → ℕ → List (Bytes × Bool) → Handler Ssl (List (Bytes × Bool))
  | 0, _, _ => Handler.fail
  | fuel + 1, start, opened => do
      Handler.modify fun ssl => { ssl with surfKeyCommitted := false, surfKeyReleased := false }
      surfSendKeyCommitment env
      let stop ← verifyUntilRejected env (n - start) start
      -- the first rejected record belongs to the next epoch
      Handler.require (stop ≠ start)
      surfReleaseEpochKey env
      let plaintexts ← Handler.collect (trueSurfOpenRecord env) (List.range' start (stop - start))
      if stop = n then pure (opened ++ plaintexts.map (·, false))
      else do
        Handler.require (∃ last ∈ plaintexts.getLast?, surfIsKeyUpdate last = true)
        rotateServerKeys env
        Handler.modify fun ssl => { ssl with surfRecords := renumber stop ssl.surfRecords }
        releaseEpochs n fuel stop (opened ++ markBoundary plaintexts)

def rotateSurfRelease (requireCloseNotify : Bool) : Handler Ssl Bytes := do
  let ssl ← Handler.get
  Handler.require
    (ssl.verifier = true ∧ ssl.surfMode = .rotate ∧ ssl.surfKeyReleased = false)
  let n := ssl.surfRecords.length
  let marked ← releaseEpochs env n (n + 1) 0 []
  Handler.modify fun ssl => { ssl with surfKeyReleased := true }
  let out ← assemble requireCloseNotify (marked.map Prod.fst)
  -- the rotation has already handled the `KeyUpdate` at the end of an epoch
  Handler.forEach (replay env) ((marked.filter fun entry => !entry.2).map Prod.fst)
  pure out

def endsEpoch (finalEpoch : Bool) (plaintext : Bytes) : Bool :=
  if finalEpoch then surfIsCloseNotify plaintext else surfIsKeyUpdate plaintext

/-- The end of `rotate_surf_release_epoch`: rotate, and let the next record start an epoch. -/
def closeEpoch (n : ℕ) (opened : List Bytes) : Handler Ssl Unit := do
  rotateServerKeys env
  Handler.modify fun ssl =>
    { ssl with
      readSequence := 0
      surfEpochStart := n
      surfEpoch := ssl.surfEpoch + 1
      closedEpochs := ssl.closedEpochs ++ [opened] }

def rotateSurfReleaseEpoch (finalEpoch : Bool) : Handler Ssl Bytes := do
  let ssl ← Handler.get
  Handler.require (ssl.verifier = true ∧ ssl.surfMode = .rotate)
  let start := ssl.surfEpochStart
  let n := ssl.surfRecords.length
  Handler.require (start < n)
  Handler.modify fun ssl => { ssl with surfKeyCommitted := false, surfKeyReleased := false }
  surfSendKeyCommitment env
  let indices := List.range' start (n - start)
  Handler.forEach (verifyInEpoch env) indices
  surfReleaseEpochKey env
  let opened ← Handler.collect (trueSurfOpenRecord env) indices
  Handler.require (∃ last ∈ opened.getLast?, endsEpoch finalEpoch last = true)
  Handler.require (∀ plaintext ∈ opened.dropLast, surfIsCloseNotify plaintext = false)
  let out := opened.flatMap applicationBytes
  Handler.forEach (replay env) (if finalEpoch then opened else opened.dropLast)
  if finalEpoch = true then pure out
  else do
    closeEpoch env n opened
    pure out

end Release

section Runs

/-- `kMaxSurfRecords`. -/
def maxSurfRecords : ℕ := 4096

/-- The record that `surf_capture_ciphertext` stores: the last 16 bytes are the tag. -/
def capturedRecord (seq : UInt64) (body : Bytes) : SurfRecord where
  ciphertext := body.take (body.length - 16)
  tag := fun i => body.getD (body.length - 16 + i) 0
  seq := seq

/--
The branch of `tls_open_record` for a capture mode, once the traffic keys are
installed: the body is stored before the counters are checked.
-/
def captureRecord (body : Bytes) : Handler Ssl Unit := do
  let ssl ← Handler.get
  Handler.require (ssl.verifier = true ∧ ssl.surfTrueMode = true)
  Handler.require (16 ≤ body.length)
  Handler.modify fun ssl =>
    { ssl with surfRecords := ssl.surfRecords ++ [capturedRecord ssl.readSequence body] }
  Handler.require (ssl.readSequence + 1 ≠ 0)
  Handler.modify fun ssl => { ssl with readSequence := ssl.readSequence + 1 }
  Handler.require (ssl.surfRecords.length + 1 ≤ maxSurfRecords)

/-- What is done with a connection to an origin: records arrive, and releases are tried. -/
inductive Call where
  | captureRecord (body : Bytes)
  | trueSurfRelease (requireCloseNotify : Bool)
  | rotateSurfRelease (requireCloseNotify : Bool)
  | rotateSurfReleaseEpoch (finalEpoch : Bool)
deriving Repr, DecidableEq

def perform : Call → Handler Ssl Bytes
  | .captureRecord body => do
      captureRecord body
      pure []
  | .trueSurfRelease requireCloseNotify => trueSurfRelease env requireCloseNotify
  | .rotateSurfRelease requireCloseNotify => rotateSurfRelease env requireCloseNotify
  | .rotateSurfReleaseEpoch finalEpoch => rotateSurfReleaseEpoch env finalEpoch

def performAll : List Call → Ssl → Ssl
  | [], ssl => ssl
  | call :: later, ssl => performAll later (perform env call ssl).2

end Runs

end PracticalCrypto.Surf.Prover
