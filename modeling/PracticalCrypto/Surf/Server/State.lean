import PracticalCrypto.Library.BigEndian
import PracticalCrypto.Library.Handler
import PracticalCrypto.Surf.BlockMap

/-!
# The state of the SURF verifier

This file embeds the data of `Server` (`surf-impl/src/nodes/Server.hpp`), the
message headers of `ssl/Messaging.hpp`, and the primitive reads and writes of
`nodes/Server.cpp`.

Everything the verifier does not compute itself is answered by an
`Environment`: whether a connection arrives and with which bytes, whether a
write succeeds, and what a joint circuit outputs. The `n`-th interaction asks
the environment with the number `n`, so an arbitrary environment together with
arbitrary received bytes covers every behaviour of the prover and the network.

The log records the steps that the security of the protocol depends on. It is
not read by any handler.
-/

namespace PracticalCrypto.Surf

abbrev Bytes := List UInt8

/-- `SSL3_RT_MAX_PLAIN_LENGTH`. -/
def maxPlainLength : ℕ := 16384

inductive Mode where
  | masked
  | trueSurf
  | rotate
deriving Repr, DecidableEq

/-- `Surf::is_capture`, the value of the member `true_surf`. -/
def Mode.isCapture : Mode → Bool
  | .masked => false
  | .trueSurf => true
  | .rotate => true

/-- `Messaging::MessageHeaders` in the order of its values; no enumerator has the value 15. -/
inductive MessageHeader where
  | collect
  | ok
  | doneHs
  | serverKeyShare
  | hsRecv
  | doEctf
  | ectfDone
  | advanceKs
  | ksDone
  | transcriptInit
  | transcriptInitDone
  | certificateCtxSend
  | certificateCtxRecv
  | h6Send
  | h6Recv
  | unassigned
  | deriveTs
  | gcmShareStart
  | gcmShareDone
  | deriveRes
  | resDone
  | derivePsk
  | pskDone
  | commit
  | commitTo
  | aesEnc
  | sessionCtxSend
  | sessionCtxRecv
  | stop
  | hsModeFull
  | hsModeResumed
  | pskSkip
  | runFull
  | runResumed
  | derivePsk8
  | deriveBinder
  | maskCommitments
  | gcmVerify
  | ksDerive
  | gcmTag
  | keyCommit
  | keyRelease
  | derivePsk0
  | rotateKey
  | tagOk
  | tagReject
deriving Repr, DecidableEq

namespace MessageHeader

/-- The headers that `is_valid_header` accepts, by value. -/
def all : List MessageHeader :=
  [.collect, .ok, .doneHs, .serverKeyShare, .hsRecv, .doEctf, .ectfDone, .advanceKs, .ksDone,
    .transcriptInit, .transcriptInitDone, .certificateCtxSend, .certificateCtxRecv, .h6Send,
    .h6Recv, .unassigned, .deriveTs, .gcmShareStart, .gcmShareDone, .deriveRes, .resDone,
    .derivePsk, .pskDone, .commit, .commitTo, .aesEnc, .sessionCtxSend, .sessionCtxRecv, .stop,
    .hsModeFull, .hsModeResumed, .pskSkip, .runFull, .runResumed, .derivePsk8, .deriveBinder,
    .maskCommitments, .gcmVerify, .ksDerive, .gcmTag, .keyCommit, .keyRelease, .derivePsk0,
    .rotateKey, .tagOk, .tagReject]

def ofByte (byte : UInt8) : Option MessageHeader := all[byte.toNat]?

def toByte (header : MessageHeader) : UInt8 := UInt8.ofNat header.ctorIdx

theorem ofByte_toByte (header : MessageHeader) : ofByte header.toByte = some header := by
  cases header <;> rfl

end MessageHeader

/-- `Server::ServerState` in the order of its values. -/
inductive ServerState where
  | accept
  | handshake
  | handshakeDone
  | circuitPreproc
  | maskCommit
  | readingKs
  | makingKs
  | writingKs
  | pskBinder
  | readingSks
  | finishingTph
  | writingHsRecv
  | ectfWait
  | ectfDone
  | ksWait
  | ksDone
  | certWait
  | certRecv
  | deriveTs
  | gcmShareDerive
  | gcmShareDone
  | deriveRes
  | resDone
  | derivePsk
  | pskDone
  | shutdown
  | done
deriving Repr, DecidableEq

namespace ServerState

def value (state : ServerState) : ℕ := state.ctorIdx

def next : ServerState → ServerState
  | .accept => .handshake
  | .handshake => .handshakeDone
  | .handshakeDone => .circuitPreproc
  | .circuitPreproc => .maskCommit
  | .maskCommit => .readingKs
  | .readingKs => .makingKs
  | .makingKs => .writingKs
  | .writingKs => .pskBinder
  | .pskBinder => .readingSks
  | .readingSks => .finishingTph
  | .finishingTph => .writingHsRecv
  | .writingHsRecv => .ectfWait
  | .ectfWait => .ectfDone
  | .ectfDone => .ksWait
  | .ksWait => .ksDone
  | .ksDone => .certWait
  | .certWait => .certRecv
  | .certRecv => .deriveTs
  | .deriveTs => .gcmShareDerive
  | .gcmShareDerive => .gcmShareDone
  | .gcmShareDone => .deriveRes
  | .deriveRes => .resDone
  | .resDone => .derivePsk
  | .derivePsk => .pskDone
  | .pskDone => .shutdown
  | .shutdown => .done
  | .done => .done

end ServerState

inductive Direction where
  | client
  | server
deriving Repr, DecidableEq

structure Slot where
  seq : UInt64
  counter : UInt32
  padding : Bool
deriving Repr, DecidableEq

/-- What the log records. -/
inductive Event where
  /-- `reset_per_connection_state`: a new connection begins. -/
  | connection
  /-- A header read by one of the two loops that dispatch encryption and attestation. -/
  | message (header : MessageHeader)
  /-- The encryption circuit is run on these counter blocks. -/
  | aesEncBatch (seq : UInt64) (ctr : Fin 16 → Block)
  /-- `encrypt_blocks` completes for this record. -/
  | encrypted (seq : UInt64)
  | tagCircuit (seq : UInt64) (aad ciphertext : Bytes)
  /-- A `GCM_VERIFY` message for this record is received. -/
  | verifyRequest (seq : UInt64)
  | tagPassed (seq : UInt64) (ciphertext : Bytes)
  | keystreamRequest (records : List BlockMap.RecordDims)
  | keystreamBatch (slots : List Slot)
  | keyCommitted
  | keyWritten (share : Block)
  /-- The rotation circuit is run and the traffic key replaced. -/
  | rotateCircuit (direction : Direction)
  /-- A rotation is complete; the sequence numbers restart. -/
  | rotated (direction : Direction)
  | handshakeMode (resumed : Bool)
  /-- The handshake circuit is run, for a resumed handshake or not, on this PSK share. -/
  | handshakeCircuit (resumed : Bool) (pskShare : Block)
  /-- `do_cert_wait` ends for a `CERTIFICATE_CTX_SEND` message with this many bytes behind its size.
  The members still held `kept` bytes of the messages before. -/
  | certificate (kept arrived : ℕ)
  /-- `write_cert_recv` writes the CHTS and SHTS shares. -/
  | sharesRevealed (chtsShare shtsShare : Block)
  | pskProduced (share : Block)
  | pskInstalled (share : Block)
deriving DecidableEq

/-- The members of `Server` that the steps recorded in the log read and change. -/
structure Session where
  mode : Mode
  retainCt : Bool
  resumedHandshake : Bool
  pskShare : Block
  clientIv : Iv
  serverIv : Iv
  clientKeyShare : Block
  serverKeyShare : Block
  catsShare : Block
  satsShare : Block
  clientGcmPowers : Bytes
  serverGcmPowers : Bytes
  maskCommitment : Bytes
  keyCommitment : Bytes
  epoch : UInt32
  keyCommitted : Bool
  keyReleased : Bool
  attestedCt : List (UInt64 × Bytes)
  encryptedCt : List Block
  encryptAad : Bytes
  encryptCtLen : ℕ
  encryptedSeqs : List UInt64
  verifiedSeqs : List UInt64
  log : List Event

inductive Circuit where
  | handshakeA
  | handshakeB
  | traffic
  | gcm
  | resumption
  | psk
  | psk8
  | psk0
  | binder
  | gcmVfy
  | ksBlock
  | aesEnc
  | gcmTag
  | rotate
deriving Repr, DecidableEq

/-- `KeyShare`: the group, which is 0 before a share exists, and the serialised sum of the keys. -/
structure KeyShare where
  groupId : UInt16
  additiveShare : Bytes
deriving Repr, DecidableEq

/-- `HandshakeCircuitOut`: the shares that later steps use. -/
structure HandshakeKeyShares where
  chtsShare : Block
  shtsShare : Block
  msShare : Block

/-- `TrafficCircuitOut`. -/
structure TrafficKeyShares where
  clientIv : Iv
  serverIv : Iv
  clientKeyShare : Block
  serverKeyShare : Block
  catsShare : Block
  satsShare : Block

structure RotateCircuitOut where
  nextShare : Block
  keyShare : Block
  iv : Iv

structure Server where
  session : Session
  state : ServerState
  isResumptionRun : Bool
  pskSkipped : Bool
  shouldAttest : Bool
  keyShareA : KeyShare
  keyShareB : KeyShare
  activeKeyShare : Circuit
  clientPublicKey : Bytes
  buffer : Bytes
  xSecret : Bytes
  transcript : Bytes
  serverKeyComm : Bytes
  handshakeKeyShares : HandshakeKeyShares
  rmsShare : Block
  circuits : Circuit → Bool
  inbox : Bytes
  /-- The length of `inbox` when the last record had been read to its end. -/
  quiet : ℕ
  outbox : Bytes
  clock : ℕ

/-- A `Server` after construction, with zero in the members that have no initial value. -/
def Server.initial (mode : Mode) : Server where
  session :=
    { mode, retainCt := true, resumedHandshake := false, pskShare := fun _ => 0
      clientIv := fun _ => 0, serverIv := fun _ => 0
      clientKeyShare := fun _ => 0, serverKeyShare := fun _ => 0
      catsShare := fun _ => 0, satsShare := fun _ => 0
      clientGcmPowers := [], serverGcmPowers := [], maskCommitment := [], keyCommitment := []
      epoch := 0, keyCommitted := false, keyReleased := false, attestedCt := []
      encryptedCt := [], encryptAad := [], encryptCtLen := 0, encryptedSeqs := []
      verifiedSeqs := [], log := [] }
  state := .accept
  isResumptionRun := false
  pskSkipped := false
  shouldAttest := false
  keyShareA := { groupId := 0, additiveShare := [] }
  keyShareB := { groupId := 0, additiveShare := [] }
  activeKeyShare := .handshakeA
  clientPublicKey := []
  buffer := List.replicate 16384 0
  xSecret := []
  transcript := []
  serverKeyComm := []
  handshakeKeyShares :=
    { chtsShare := fun _ => 0, shtsShare := fun _ => 0, msShare := fun _ => 0 }
  rmsShare := fun _ => 0
  circuits := fun _ => false
  inbox := []
  quiet := 0
  outbox := []
  clock := 0

end PracticalCrypto.Surf
