import PracticalCrypto.Surf.Server.Attestation

/-!
# Connections of the verifier

This file embeds the state machine of `nodes/Server.cpp`: one handler for each
`ServerState`, the interpreter loop `run`, the prescribed list of
`run_resumption`, `accept_and_read_mode`, and the calls that an operator makes
on one `Server` in the course of its life.

The dereference of a null circuit pointer aborts. The bodies that only time,
count or print are left out.
-/

namespace PracticalCrypto.Surf

/-- `Server::SessionKind` for a connection that was accepted. -/
inductive SessionKind where
  | full
  | resumed
deriving Repr, DecidableEq

namespace Server

variable (env : Environment)

section Setup

def setState (state : ServerState) : Handler Server Unit :=
  Handler.modify fun server => { server with state }

def advance : Handler Server Unit :=
  Handler.modify fun server => { server with state := server.state.next }

/-- `socket.pending`: what is left of the record that was read last, and nothing while no record of
the connection has been read. -/
def pending : Handler Server ℕ := do
  let now ← tick
  let server ← Handler.get
  pure (if server.inbox.length = server.quiet then 0 else env.pending now)

variable {env} in
theorem pending_eq {server : Server} (quiet : server.inbox.length = server.quiet) :
    pending env server = (.returned 0, { server with clock := server.clock + 1 }) := by
  change (Outcome.returned (if server.inbox.length = server.quiet then 0 else _), _) = _
  rw [if_pos quiet]

/-- `socket.read` into `buffer`: the rest of one record, for which the buffer has room. It stays in
front of what the buffer held before. -/
def readSome : Handler Server Bytes := do
  let now ← tick
  let server ← Handler.get
  let bytes := server.inbox.take (min (env.readSize now) maxPlainLength)
  Handler.require (bytes ≠ [])
  Handler.modify fun server =>
    { server with
      inbox := server.inbox.drop bytes.length
      quiet := server.inbox.length - bytes.length
      buffer := bytes ++ server.buffer.drop bytes.length }
  pure bytes

def unpackKeyBytes (input : Bytes) : Option (MessageHeader × Bytes) :=
  if input.length ≤ maxPlainLength ∧ 2 ≤ input.length then do
    let byte ← input.head?
    let header ← MessageHeader.ofByte byte
    some (header, input.tail)
  else none

/-- Unpack the whole of `buffer` as a `COLLECT` message. -/
def unpackPendingKeyShare : Handler Server Unit := do
  let server ← Handler.get
  let (header, key) ← Handler.ofOption (unpackKeyBytes server.buffer)
  Handler.modify fun server => { server with clientPublicKey := key }
  Handler.require (header = .collect)

def accept : Handler Server Unit := do
  let now ← tick
  let stream ← Handler.ofOption (env.accept now)
  Handler.modify fun server => { server with inbox := stream, quiet := stream.length, outbox := [] }
  advance

def writeHandshakeDone : Handler Server Unit := do
  let waiting ← pending env
  if waiting ≠ 0 then do
    let _ ← readSome env
    writeSingleHeader env .doneHs
    unpackPendingKeyShare
    setState .makingKs
  else do
    writeSingleHeader env .doneHs
    setState .circuitPreproc

def doHandshake : Handler Server Unit := do
  let now ← tick
  Handler.require (env.doHandshake now = true)
  let waiting ← pending env
  if waiting = 0 then setState .handshakeDone
  else do
    setState .readingKs
    let _ ← readSome env
    writeHandshakeDone env
    unpackPendingKeyShare
    setState .makingKs

def preprocCircuit (circuit : Circuit) : Handler Server Unit := do
  let now ← tick
  let built := env.build now circuit
  Handler.modify fun server => { server with circuits := Function.update server.circuits circuit built }
  if built = true then do
    let preprocAt ← libraryRequest env
    Handler.require (env.preproc preprocAt circuit = true)
  else pure ()

def preprocOrder (mode : Mode) : List Circuit :=
  [.handshakeA, .traffic, .gcm, .resumption, .psk, .psk8, .psk0, .binder, .gcmVfy] ++
    (if mode.isCapture then [] else [.ksBlock]) ++ [.aesEnc, .gcmTag] ++
    (if mode = .rotate then [.rotate] else [])

def doPreproc (shouldPreproc : Bool) : Handler Server Unit :=
  if shouldPreproc = false then setState .readingKs
  else do
    let server ← Handler.get
    Handler.forEach (preprocCircuit env) (preprocOrder server.session.mode)
    advance

def readMaskCommitments : Handler Server Unit := do
  let server ← Handler.get
  if server.session.mode.isCapture = true then advance
  else do
    let header ← readSingleHeader
    Handler.require (header = .maskCommitments)
    let commitment ← readExact 32
    modifySession fun session => { session with maskCommitment := commitment }
    advance

/-- `read_keyshare` and the check of its header. -/
def readKeyshare (expected : MessageHeader) : Handler Server Unit := do
  let bytes ← readSome env
  let (header, key) ← Handler.ofOption (unpackKeyBytes bytes)
  Handler.modify fun server => { server with clientPublicKey := key }
  Handler.require (header = expected)

def readKeyshareAfterHandshake : Handler Server Unit := do
  readKeyshare env .collect
  setState .makingKs

def takeKeyEntry (bytes : Bytes) : Option (UInt16 × Bytes × Bytes) :=
  let length := BigEndian.toNat ((bytes.drop 2).take 2)
  if 4 + length ≤ bytes.length then
    some (UInt16.ofNat (BigEndian.toNat (bytes.take 2)), (bytes.drop 4).take length,
      bytes.drop (4 + length))
  else none

def createNewShare : Handler Server Unit := do
  let server ← Handler.get
  let (group, key, rest) ← Handler.ofOption (takeKeyEntry server.clientPublicKey)
  let now ← tick
  let created := env.createNewShare now server.keyShareA group key
  Handler.modify fun server => { server with keyShareA := created.2 }
  Handler.require (created.1 = true)
  if rest = [] then advance
  else do
    let (group, key, rest) ← Handler.ofOption (takeKeyEntry rest)
    let later ← tick
    let created := env.createNewShare later server.keyShareB group key
    Handler.modify fun server => { server with keyShareB := created.2 }
    Handler.require (created.1 = true ∧ rest = [])
    advance

def sendAdditiveShare : Handler Server Unit := do
  let server ← Handler.get
  let share := server.keyShareA.additiveShare ++ server.keyShareB.additiveShare
  Handler.require (share ≠ [] ∧ share.length ≤ maxPlainLength - 1)
  write env (MessageHeader.toByte .ok :: share)
  advance

end Setup

section Handshake

def doPskBinder : Handler Server Unit := do
  let server ← Handler.get
  if server.isResumptionRun = false then advance
  else do
    let header ← readSingleHeader
    Handler.require (header = .deriveBinder)
    requireCircuit .binder
    let now ← tick
    Handler.require (env.binder now server.session.pskShare = true)
    Handler.modify fun server =>
      { server with circuits := Function.update server.circuits .binder false }
    advance

def readSksKeyshare : Handler Server Unit := do
  readKeyshare env .serverKeyShare
  advance

def finishTph : Handler Server Unit := do
  let server ← Handler.get
  let (group, key, rest) ← Handler.ofOption (takeKeyEntry server.clientPublicKey)
  Handler.require (rest = [])
  let (active, share) ← Handler.ofOption
    (if server.keyShareA.groupId = group then some (Circuit.handshakeA, server.keyShareA)
      else if server.keyShareB.groupId = group then some (Circuit.handshakeB, server.keyShareB)
      else none)
  Handler.modify fun server => { server with activeKeyShare := active }
  let now ← tick
  Handler.require (env.finish now share key = true)
  setState .writingHsRecv

def writeHsRecv : Handler Server Unit := do
  let waiting ← pending env
  if waiting ≠ 0 then Handler.abort
  else do
    writeSingleHeader env .hsRecv
    advance

/-- `do_ectf`. The prover says whether the handshake of the origin was resumed. -/
def doEctf : Handler Server Unit := do
  let mode ← readSingleHeader
  Handler.require (mode = .hsModeFull ∨ mode = .hsModeResumed)
  modifySession fun session =>
    { session with
      resumedHandshake := decide (mode = .hsModeResumed)
      log := .handshakeMode (decide (mode = .hsModeResumed)) :: session.log }
  let header ← readSingleHeader
  Handler.require (header = .doEctf)
  let now ← libraryRequest env
  let secret ← Handler.ofOption (env.ectf now)
  Handler.modify fun server => { server with xSecret := secret }
  advance

/-- `finish_ectf`, `write_ks_done`, `write_completed_derivation` and `write_completed_res`. -/
def acknowledge (header : MessageHeader) : Handler Server Unit := do
  writeSingleHeader env header
  advance

/-- The PSK share that `do_ks` feeds into the handshake circuit: zeros unless resumed. -/
def pskInput (session : Session) : Block :=
  if session.resumedHandshake = true then session.pskShare else fun _ => 0

/-- Use a circuit through its pointer without a null check. -/
def dereference (circuit : Circuit) : Handler Server Unit := do
  let server ← Handler.get
  if server.circuits circuit = true then pure () else Handler.abort

def doKs : Handler Server Unit := do
  let server ← Handler.get
  dereference server.activeKeyShare
  record (.handshakeCircuit server.session.resumedHandshake (pskInput server.session))
  let now ← tick
  let shares ← Handler.ofOption (env.handshakeCircuit now server.xSecret (pskInput server.session))
  Handler.modify fun server =>
    { server with
      handshakeKeyShares := shares
      circuits := Function.update server.circuits server.activeKeyShare false }
  advance

/-- `transcript.reserve` in `read_transcript_data`, which lets no exception pass: a sum above the
largest size of a vector, or one for which there is no memory, ends the program. -/
def reserveTranscript (size : UInt64) : Handler Server Unit := do
  let server ← Handler.get
  let capacity := (server.transcript.length + size.toNat) % 2 ^ 64
  let now ← tick
  if capacity < 2 ^ 63 ∧ env.allocate now capacity = true then pure () else Handler.abort

/-- The loop of `read_transcript_data`: read records while one is partly read. -/
def readTranscript : ℕ → Handler Server Unit
  | 0 => Handler.fail
  | fuel + 1 => do
      let bytes ← readSome env
      Handler.modify fun server => { server with transcript := server.transcript ++ bytes }
      let waiting ← pending env
      if waiting ≠ 0 then readTranscript fuel else pure ()

def doCertWait : Handler Server Unit := do
  let server ← Handler.get
  if server.session.resumedHandshake = true then advance
  else do
    let header ← readSingleHeader
    Handler.require (header = .certificateCtxSend)
    let size ← readU64
    reserveTranscript env size
    let before ← Handler.get
    readTranscript env (before.inbox.length + 1)
    let server ← Handler.get
    let kept := server.transcript.length - 32
    Handler.require (32 ≤ server.transcript.length)
    let arrived := server.transcript.length - before.transcript.length
    Handler.modify fun server =>
      { server with
        serverKeyComm := server.transcript.drop kept
        transcript := server.transcript.take kept
        session := { server.session with
          log := .certificate before.transcript.length arrived :: server.session.log } }
    advance

def writeCertRecv : Handler Server Unit := do
  let server ← Handler.get
  let shares := server.handshakeKeyShares
  record (.sharesRevealed shares.chtsShare shares.shtsShare)
  write env (MessageHeader.toByte .certificateCtxRecv ::
    (List.ofFn shares.chtsShare ++ List.ofFn shares.shtsShare))
  advance

end Handshake

section Traffic

def deriveTs : Handler Server Unit := do
  let header ← readSingleHeader
  Handler.require (header = .deriveTs)
  dereference .traffic
  let server ← Handler.get
  let now ← tick
  let out ← Handler.ofOption (env.trafficCircuit now server.handshakeKeyShares.msShare)
  modifySession fun session =>
    { session with
      clientIv := out.clientIv
      serverIv := out.serverIv
      clientKeyShare := out.clientKeyShare
      serverKeyShare := out.serverKeyShare
      catsShare := out.catsShare
      satsShare := out.satsShare }
  advance

def deriveGcmShares : Handler Server Unit := do
  let header ← readSingleHeader
  Handler.require (header = .gcmShareStart)
  dereference .gcm
  let server ← Handler.get
  let clientPowers ← makeGcmShareFor env server.session.clientKeyShare
  let serverPowers ← makeGcmShareFor env server.session.serverKeyShare
  modifySession fun session =>
    { session with
      clientGcmPowers := clientPowers
      serverGcmPowers := serverPowers }
  advance

def deriveRes : Handler Server Unit := do
  let header ← readSingleHeader
  Handler.require (header = .deriveRes)
  dereference .resumption
  let server ← Handler.get
  let now ← tick
  let share ← Handler.ofOption (env.resumptionCircuit now server.handshakeKeyShares.msShare)
  Handler.modify fun server => { server with rmsShare := share }
  advance

/-- The PSK circuit for the width of the ticket nonce that the header announces. -/
def pskCircuitOf : MessageHeader → Option Circuit
  | .derivePsk => some .psk
  | .derivePsk8 => some .psk8
  | .derivePsk0 => some .psk0
  | _ => none

/-- `derive_psk`. A failed circuit leaves the PSK share as it was. -/
def derivePsk : Handler Server Unit := do
  Handler.modify fun server => { server with pskSkipped := false }
  let server ← Handler.get
  let header ← readHeaderDrainingEncryption env (server.inbox.length + 1)
  if header = .pskSkip then do
    Handler.modify fun server => { server with pskSkipped := true }
    advance
  else do
    let circuit ← Handler.ofOption (pskCircuitOf header)
    requireCircuit circuit
    let server ← Handler.get
    let now ← tick
    let share ← Handler.ofOption (env.pskCircuit now circuit server.rmsShare)
    modifySession fun session =>
      { session with
        pskShare := share
        log := .pskProduced share :: session.log }
    advance

def writeCompletedPsk : Handler Server Unit := do
  let server ← Handler.get
  if server.pskSkipped = true then advance else acknowledge env .pskDone

/-- The last state: attestation if it is enabled, then `shutdown`. -/
def attestAndShutdown : Handler Server Unit := do
  let server ← Handler.get
  if server.shouldAttest = true then attest env (server.inbox.length + 1) else pure ()
  setState .done

end Traffic

section Runs

/-- The switch of `run` and of `run_resumption`; `DONE` has no case there. -/
def serve (shouldPreproc : Bool) : ServerState → Handler Server Unit
  | .accept => accept env
  | .handshake => doHandshake env
  | .handshakeDone => writeHandshakeDone env
  | .circuitPreproc => doPreproc env shouldPreproc
  | .maskCommit => readMaskCommitments
  | .readingKs => readKeyshareAfterHandshake env
  | .makingKs => createNewShare env
  | .writingKs => sendAdditiveShare env
  | .pskBinder => doPskBinder env
  | .readingSks => readSksKeyshare env
  | .finishingTph => finishTph env
  | .writingHsRecv => writeHsRecv env
  | .ectfWait => doEctf env
  | .ectfDone => acknowledge env .ectfDone
  | .ksWait => doKs env
  | .ksDone => acknowledge env .ksDone
  | .certWait => doCertWait env
  | .certRecv => writeCertRecv env
  | .deriveTs => deriveTs env
  | .gcmShareDerive => deriveGcmShares env
  | .gcmShareDone => acknowledge env .gcmShareDone
  | .deriveRes => deriveRes env
  | .resDone => acknowledge env .resDone
  | .derivePsk => derivePsk env
  | .pskDone => writeCompletedPsk env
  | .shutdown => attestAndShutdown env
  | .done => Handler.abort

/-- What `reset_per_connection_state` clears. -/
def clearConnection (session : Session) : Session :=
  { session with
    encryptedSeqs := []
    encryptedCt := []
    encryptCtLen := 0
    verifiedSeqs := []
    keyCommitted := false
    keyReleased := false
    keyCommitment := List.replicate 32 0
    attestedCt := []
    epoch := 0
    log := .connection :: session.log }

def resetPerConnectionState : Handler Server Unit := modifySession clearConnection

/-- The loop of `run`: every state that is served successfully has a larger successor. -/
def runLoop (stopState : ServerState) (shouldPreproc : Bool) : ℕ → Handler Server Unit
  | 0 => Handler.fail
  | fuel + 1 => do
      let server ← Handler.get
      if stopState.value ≤ server.state.value then pure ()
      else do
        serve env shouldPreproc server.state
        runLoop stopState shouldPreproc fuel

def run (stopState : ServerState) (shouldPreproc alreadyAccepted : Bool) :
    Handler Server Unit := do
  if alreadyAccepted = false then do
    setState .accept
    resetPerConnectionState
  else pure ()
  Handler.modify fun server => { server with isResumptionRun := false }
  runLoop env stopState shouldPreproc 28

/-- `kResumptionStates`. -/
def resumptionStates : List ServerState :=
  [.accept, .handshake, .handshakeDone, .circuitPreproc, .maskCommit, .readingKs, .makingKs,
    .writingKs, .pskBinder, .readingSks, .finishingTph, .writingHsRecv, .ectfWait, .ectfDone,
    .ksWait, .ksDone, .certWait, .certRecv, .deriveTs, .gcmShareDerive, .gcmShareDone, .deriveRes,
    .resDone, .derivePsk, .pskDone, .shutdown]

def runResumption (stopState : ServerState) (shouldPreproc alreadyAccepted : Bool) :
    Handler Server Unit := do
  if alreadyAccepted = false then resetPerConnectionState else pure ()
  Handler.modify fun server =>
    { server with
      circuits := fun _ => false
      isResumptionRun := true }
  Handler.forEach
    (fun state => do
      setState state
      serve env shouldPreproc state)
    ((resumptionStates.drop (if alreadyAccepted then 3 else 0)).takeWhile
      fun state => state.value < stopState.value)

/-- `accept_and_read_mode`; the result `Idle` is a failure here. -/
def acceptAndReadMode : Handler Server SessionKind := do
  resetPerConnectionState
  setState .accept
  accept env
  doHandshake env
  let server ← Handler.get
  Handler.require (server.state = .handshakeDone)
  writeHandshakeDone env
  let mode ← readSingleHeader
  Handler.require (mode = .runFull ∨ mode = .runResumed)
  pure (if mode = .runResumed then .resumed else .full)

/-- One connection as the operators serve it: the run-type tag decides which driver continues. -/
def serveConnection (shouldPreproc : Bool) : Handler Server Unit := do
  let kind ← acceptAndReadMode env
  match kind with
  | .full => run env .done shouldPreproc true
  | .resumed => runResumption env .done shouldPreproc true

/-- What the operator of a `Server` can do with it between connections. -/
inductive Call where
  | serveConnection (shouldPreproc : Bool)
  | run (stopState : ServerState) (shouldPreproc : Bool)
  | runResumption (stopState : ServerState) (shouldPreproc : Bool)
  | setPskShare (share : Block)
  | setAttestation

def perform : Call → Handler Server Unit
  | .serveConnection shouldPreproc => serveConnection env shouldPreproc
  | .run stopState shouldPreproc => run env stopState shouldPreproc false
  | .runResumption stopState shouldPreproc => runResumption env stopState shouldPreproc false
  | .setPskShare share => modifySession fun session =>
      { session with
        pskShare := share
        log := .pskInstalled share :: session.log }
  | .setAttestation => Handler.modify fun server => { server with shouldAttest := true }

/-- The calls in order; a failed call does not prevent the next one, an abort does. -/
def performAll : List Call → Server → Server
  | [], server => server
  | call :: later, server =>
      match perform env call server with
      | (.aborted, stopped) => stopped
      | (_, served) => performAll later served

/-- The members after construction; those that are not listed have no initial value. -/
structure Fresh (server : Server) : Prop where
  state_eq : server.state = .accept
  resumedHandshake_eq : server.session.resumedHandshake = false
  pskShare_eq : server.session.pskShare = fun _ => 0
  keyCommitted_eq : server.session.keyCommitted = false
  keyReleased_eq : server.session.keyReleased = false
  epoch_eq : server.session.epoch = 0
  attestedCt_eq : server.session.attestedCt = []
  encryptedCt_eq : server.session.encryptedCt = []
  encryptCtLen_eq : server.session.encryptCtLen = 0
  encryptedSeqs_eq : server.session.encryptedSeqs = []
  verifiedSeqs_eq : server.session.verifiedSeqs = []
  log_eq : server.session.log = []

theorem fresh_initial (mode : Mode) : Fresh (Server.initial mode) :=
  ⟨rfl, rfl, rfl, rfl, rfl, rfl, rfl, rfl, rfl, rfl, rfl, rfl⟩

end Runs

end Server

end PracticalCrypto.Surf
