import PracticalCrypto.Library.EventLog
import PracticalCrypto.Surf.Server.Connection

/-!
# The abstract machine of a verifier session

What the verifier does to its session, cut into steps: each step is guarded by
what the code has checked before it, changes the session and records its event.
The order in which a prover may ask for the steps is left open, so a property of
all runs of this machine is a property of the verifier against every prover.
`Surf.Server.Refinement` shows that the code only takes these steps.
-/

namespace PracticalCrypto.Surf

open BlockMap EventLog

namespace Event

def isConnection : Event → Bool
  | .connection => true
  | _ => false

/-- The events that no property of a run refers to by itself. -/
def isPlain : Event → Bool
  | .message _ => true
  | .aesEncBatch _ _ => true
  | .keystreamRequest _ => true
  | .verifyRequest _ => true
  | _ => false

end Event

def currentConnection (log : List Event) : List Event := since Event.isConnection log

theorem currentConnection_cons {event : Event} (log : List Event)
    (other : event.isConnection = false) :
    currentConnection (event :: log) = event :: currentConnection log :=
  since_cons_other other

/-- A keystream request of which nothing but batches has been served yet. -/
def Requested (records : List RecordDims) (log : List Event) : Prop :=
  ∃ batches older, log = batches ++ .keystreamRequest records :: older ∧
    ∀ event ∈ batches, ∃ slots, event = .keystreamBatch slots

def MayReveal (log : List Event) : Prop :=
  (∃ kept arrived, 32 ≤ kept + arrived ∧ .certificate kept arrived ∈ currentConnection log) ∨
    ∃ share, .handshakeCircuit true share ∈ currentConnection log

namespace Session

/-- One step of joint encryption or attestation. -/
inductive Operation (s : Session) : Session → Prop where
  | note (event : Event) (plain : event.isPlain = true) :
      Operation s { s with log := event :: s.log }
  | encrypting (encryptedCt : List Block) : Operation s { s with encryptedCt }
  | encrypted (seq : UInt64) (encryptCtLen : ℕ) (fresh : seq ∉ s.encryptedSeqs) :
      Operation s
        { s with
          encryptCtLen
          encryptedSeqs := s.encryptedSeqs ++ [seq]
          log := .encrypted seq :: s.log }
  | readAad (encryptAad : Bytes) : Operation s { s with encryptAad }
  | tagCircuit (seq : UInt64) (aad ciphertext : Bytes)
      (last : s.encryptedSeqs.getLast? = some seq)
      (asked : s.log.head? = some (.message .gcmTag)) :
      Operation s { s with log := .tagCircuit seq aad ciphertext :: s.log }
  | attest (seq : UInt64) (ciphertext : Bytes)
      (held : s.mode.isCapture = true → s.keyCommitted = true ∧ s.keyReleased = false)
      (asked : s.log.head? = some (.verifyRequest seq)) :
      Operation s (Server.attestRecord seq ciphertext s)
  | keystream (records : List RecordDims) (slots : List Slot)
      (requested : Requested records s.log)
      (verified : ∀ entry ∈ records, entry.seq ∈ s.verifiedSeqs)
      (covered : ∀ slot ∈ slots, slot.padding = false →
        ∃ entry ∈ records, ∃ position < blocksOf entry.ctLen.toNat,
          slot.seq = entry.seq ∧ slot.counter = UInt32.ofNat position + 2) :
      Operation s { s with log := .keystreamBatch slots :: s.log }
  | commit (keyCommitment : Bytes)
      (first : s.keyCommitted = false ∧ s.keyReleased = false) :
      Operation s
        { s with keyCommitment, keyCommitted := true, log := .keyCommitted :: s.log }
  | release (held : s.keyCommitted = true ∧ s.keyReleased = false) :
      Operation s
        { s with keyReleased := true, log := .keyWritten s.serverKeyShare :: s.log }
  | rotate (out : RotateCircuitOut) (direction : Direction)
      (released : direction = .server → s.keyReleased = true) :
      Operation s (Server.installRotated out direction s)
  | restart (powers : Bytes) (direction : Direction)
      (released : direction = .server → s.keyReleased = true) :
      Operation s (Server.restartSequence powers direction s)

/-- One step of a verifier. -/
inductive Step (s : Session) : Session → Prop where
  | operation {t : Session} (operation : Operation s t) : Step s t
  | connect : Step s (Server.clearConnection s)
  | rekey (clientIv serverIv : Iv)
      (clientKeyShare serverKeyShare catsShare satsShare : Block)
      (clientGcmPowers serverGcmPowers maskCommitment : Bytes) :
      Step s
        { s with
          clientIv, serverIv, clientKeyShare, serverKeyShare, catsShare, satsShare
          clientGcmPowers, serverGcmPowers, maskCommitment }
  | handshakeMode (resumedHandshake : Bool) :
      Step s
        { s with resumedHandshake, log := .handshakeMode resumedHandshake :: s.log }
  | handshakeCircuit :
      Step s
        { s with log := .handshakeCircuit s.resumedHandshake (Server.pskInput s) :: s.log }
  | certificate (kept arrived : ℕ) : Step s { s with log := .certificate kept arrived :: s.log }
  | reveal (chtsShare shtsShare : Block) (allowed : MayReveal s.log) :
      Step s { s with log := .sharesRevealed chtsShare shtsShare :: s.log }
  | producePsk (pskShare : Block) :
      Step s { s with pskShare, log := .pskProduced pskShare :: s.log }
  | installPsk (pskShare : Block) :
      Step s { s with pskShare, log := .pskInstalled pskShare :: s.log }

end Session

end PracticalCrypto.Surf
