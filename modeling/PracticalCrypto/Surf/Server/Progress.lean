import Mathlib.Data.List.Chain
import PracticalCrypto.Surf.Server.Connection

/-!
# Progress of a connection

The loops of the verifier take the number of their rounds as an argument. This
file shows that the numbers the code uses are never used up: the handlers of
encryption and attestation never lengthen the received stream, every header
shortens it, and every handler of the state machine that returns leads to a
later state.
-/

namespace PracticalCrypto.Surf

open BlockMap Handler

/-- The events of a run of `encrypt_blocks`, with the message that asks for it. -/
def Event.ofEncryption : Event → Bool
  | .message .aesEnc => true
  | .aesEncBatch _ _ => true
  | .encrypted _ => true
  | _ => false

namespace Server

variable {env : Environment} {s : Server}

section IoBlind

variable {rel : Server → Server → Prop} [IoBlind rel]

theorem keeps_pending : Keeps rel (pending env) :=
  keeps_bind keeps_tick fun _ => keeps_bind keeps_get fun _ => keeps_pure _

theorem keeps_readSome : Keeps rel (readSome env) := by
  refine keeps_bind keeps_tick fun _ => keeps_bind keeps_get fun _ => ?_
  refine keeps_bind (keeps_require _) fun _ => keeps_bind ?_ fun _ => keeps_pure _
  exact keeps_modify fun server => IoBlind.io server _ _ _ _ _ _ _

theorem keeps_unpackPendingKeyShare : Keeps rel unpackPendingKeyShare := by
  refine keeps_bind keeps_get fun _ => keeps_bind (keeps_ofOption _) fun _ => ?_
  refine keeps_bind ?_ fun _ => keeps_require _
  exact keeps_modify fun server => IoBlind.io server 0 _ _ _ _ _ _

theorem keeps_preprocCircuit {rel : Server → Server → Prop} [CircuitBlind rel] (circuit : Circuit) :
    Keeps rel (preprocCircuit env circuit) := by
  refine keeps_bind keeps_tick fun _ => keeps_bind ?_ fun _ => ?_
  · exact keeps_modify fun server => CircuitBlind.circuits server _
  · exact keeps_ite (keeps_bind keeps_libraryRequest fun _ => keeps_require _) (keeps_pure _)

theorem keeps_readKeyshare (expected : MessageHeader) : Keeps rel (readKeyshare env expected) := by
  refine keeps_bind keeps_readSome fun _ => keeps_bind (keeps_ofOption _) fun _ => ?_
  refine keeps_bind ?_ fun _ => keeps_require _
  exact keeps_modify fun server => IoBlind.io server 0 _ _ _ _ _ _

theorem keeps_dereference (circuit : Circuit) : Keeps rel (dereference circuit) :=
  keeps_bind keeps_get fun _ => keeps_ite (keeps_pure _) keeps_abort

theorem keeps_reserveTranscript (size : UInt64) : Keeps rel (reserveTranscript env size) := by
  refine keeps_bind keeps_get fun _ => keeps_bind keeps_tick fun _ => ?_
  exact keeps_ite (keeps_pure _) keeps_abort

theorem keeps_readTranscript (fuel : ℕ) : Keeps rel (readTranscript env fuel) := by
  induction fuel with
  | zero => exact keeps_fail
  | succ fuel ih =>
      refine keeps_bind keeps_readSome fun _ => keeps_bind ?_ fun _ => ?_
      · exact keeps_modify fun server => IoBlind.io server 0 _ _ _ _ _ _
      · exact keeps_bind keeps_pending fun _ => keeps_ite ih (keeps_pure _)

theorem keeps_readRecordDims : Keeps rel readRecordDims :=
  keeps_bind (keeps_readExact _) fun _ => keeps_bind (keeps_require _) fun _ => keeps_pure _

end IoBlind

section SetupBlind

/-- Relations that accepting a connection and entering a state respect as well. -/
class SetupBlind (rel : Server → Server → Prop) : Prop extends CircuitBlind rel where
  setup : ∀ (server : Server) (state : ServerState) (inbox : Bytes) (quiet : ℕ) (outbox : Bytes),
    rel server { server with state, inbox, quiet, outbox }

instance setupBlindSession : SetupBlind (Same session) where
  setup _ _ _ _ _ := rfl

variable {rel : Server → Server → Prop} [SetupBlind rel]

theorem keeps_setState (state : ServerState) : Keeps rel (setState state) :=
  keeps_modify fun server => SetupBlind.setup server state _ _ _

theorem keeps_advance : Keeps rel advance :=
  keeps_modify fun server => SetupBlind.setup server _ _ _ _

theorem keeps_accept : Keeps rel (accept env) := by
  refine keeps_bind keeps_tick fun _ => keeps_bind (keeps_ofOption _) fun _ => ?_
  refine keeps_bind ?_ fun _ => keeps_advance
  exact keeps_modify fun server => SetupBlind.setup server server.state _ _ _

theorem keeps_writeHandshakeDone : Keeps rel (writeHandshakeDone env) := by
  refine keeps_bind keeps_pending fun _ => keeps_ite ?_ ?_
  · refine keeps_bind keeps_readSome fun _ => keeps_bind (keeps_write _) fun _ => ?_
    exact keeps_bind keeps_unpackPendingKeyShare fun _ => keeps_setState _
  · exact keeps_bind (keeps_write _) fun _ => keeps_setState _

theorem keeps_doHandshake : Keeps rel (doHandshake env) := by
  refine keeps_bind keeps_tick fun _ => keeps_bind (keeps_require _) fun _ => ?_
  refine keeps_bind keeps_pending fun _ => keeps_ite (keeps_setState _) ?_
  refine keeps_bind (keeps_setState _) fun _ => keeps_bind keeps_readSome fun _ => ?_
  refine keeps_bind keeps_writeHandshakeDone fun _ => ?_
  exact keeps_bind keeps_unpackPendingKeyShare fun _ => keeps_setState _

theorem keeps_doPreproc (shouldPreproc : Bool) : Keeps rel (doPreproc env shouldPreproc) := by
  refine keeps_ite (keeps_setState _) (keeps_bind keeps_get fun _ => ?_)
  exact keeps_bind (keeps_forEach keeps_preprocCircuit _) fun _ => keeps_advance

theorem keeps_sendAdditiveShare : Keeps rel (sendAdditiveShare env) := by
  refine keeps_bind keeps_get fun _ => keeps_bind (keeps_require _) fun _ => ?_
  exact keeps_bind (keeps_write _) fun _ => keeps_advance

theorem keeps_doPskBinder : Keeps rel (doPskBinder env) := by
  refine keeps_bind keeps_get fun _ => keeps_ite keeps_advance ?_
  refine keeps_bind keeps_readSingleHeader fun _ => keeps_bind (keeps_require _) fun _ => ?_
  refine keeps_bind (keeps_requireCircuit _) fun _ => keeps_bind keeps_tick fun _ => ?_
  refine keeps_bind (keeps_require _) fun _ => keeps_bind ?_ fun _ => keeps_advance
  exact keeps_modify fun server => CircuitBlind.circuits server _

theorem keeps_writeHsRecv : Keeps rel (writeHsRecv env) := by
  refine keeps_bind keeps_pending fun _ => keeps_ite keeps_abort ?_
  exact keeps_bind (keeps_write _) fun _ => keeps_advance

theorem keeps_acknowledge (header : MessageHeader) : Keeps rel (acknowledge env header) :=
  keeps_bind (keeps_write _) fun _ => keeps_advance

theorem keeps_writeCompletedPsk : Keeps rel (writeCompletedPsk env) :=
  keeps_bind keeps_get fun _ => keeps_ite keeps_advance (keeps_acknowledge _)

end SetupBlind

section SessionBlind

/-- Relations between servers that changes of the session respect as well. -/
class SessionBlind (rel : Server → Server → Prop) : Prop extends IoBlind rel where
  session : ∀ (server : Server) (session : Session), rel server { server with session }

def Shrinks (before after : Server) : Prop := after.inbox.length ≤ before.inbox.length

instance : SessionBlind Shrinks where
  refl _ := le_rfl
  trans _ _ _ first second := le_trans second first
  io server read _ _ _ _ _ := by
    simp [Shrinks]
  session _ _ := le_rfl

instance : SessionBlind (Same state) where
  session _ _ := rfl

variable {rel : Server → Server → Prop} [SessionBlind rel]

theorem keeps_modifySession (change : Session → Session) : Keeps rel (modifySession change) :=
  keeps_modify fun server => SessionBlind.session server _

end SessionBlind

section LogBlind

/-- The log has grown by events of this kind. -/
def Logs (events : Event → Prop) (older log : List Event) : Prop :=
  ∃ newer, log = newer ++ older ∧ ∀ event ∈ newer, events event

variable {events : Event → Prop}

theorem Logs.one {event : Event} (log : List Event) (logged : events event) :
    Logs events log (event :: log) :=
  ⟨[event], rfl, List.forall_mem_singleton.mpr logged⟩

/-- Relations between servers that a session respects as long as it logs only such events. -/
class LogBlind (events : Event → Prop) (rel : Server → Server → Prop) : Prop extends
    IoBlind rel where
  session : ∀ (server : Server) (session : Session),
    Logs events server.session.log session.log → rel server { server with session }

variable {rel : Server → Server → Prop}

instance SessionBlind.logBlind [SessionBlind rel] : LogBlind events rel where
  session server session _ := SessionBlind.session server session

variable [LogBlind events rel]

theorem keeps_logSession {change : Session → Session}
    (logs : ∀ session, Logs events session.log (change session).log) :
    Keeps rel (modifySession change) :=
  keeps_modify fun server => LogBlind.session server _ (logs server.session)

theorem keeps_unlogged (events : Event → Prop) {rel : Server → Server → Prop}
    [LogBlind events rel] {change : Session → Session}
    (same : ∀ session, (change session).log = session.log) : Keeps rel (modifySession change) := by
  have unlogged : ∀ session, Logs events session.log (change session).log :=
    fun session => ⟨[], same session, nofun⟩
  exact keeps_logSession unlogged

theorem keeps_record {event : Event} (logged : events event) : Keeps rel (record event) :=
  keeps_logSession fun session => Logs.one session.log logged

theorem keeps_encryptBatch (logs : ∀ event : Event, event.ofEncryption = true → events event)
    (seq : UInt64) (nblocks batch : ℕ) : Keeps rel (encryptBatch env seq nblocks batch) := by
  refine keeps_bind keeps_get fun _ => keeps_bind (keeps_record (logs _ rfl)) fun _ => ?_
  refine keeps_bind keeps_tick fun _ => keeps_bind (keeps_ofOption _) fun _ => ?_
  refine keeps_bind (keeps_require _) fun _ => ?_
  exact keeps_unlogged events fun _ => rfl

theorem keeps_encryptBlocks (logs : ∀ event : Event, event.ofEncryption = true → events event) :
    Keeps rel (encryptBlocks env) := by
  refine keeps_bind (keeps_requireCircuit _) fun _ => keeps_bind keeps_readU64 fun _ => ?_
  refine keeps_bind keeps_get fun _ => keeps_bind (keeps_require _) fun _ => ?_
  refine keeps_bind keeps_readU32 fun _ => keeps_bind (keeps_require _) fun _ => ?_
  refine keeps_bind (keeps_unlogged events fun _ => rfl) fun _ => ?_
  refine keeps_bind (keeps_forEach (keeps_encryptBatch logs _ _) _) fun _ => ?_
  exact keeps_logSession fun session => Logs.one session.log (logs _ rfl)

section Others

variable (logs : ∀ event : Event, event.ofEncryption = false → events event)

include logs

theorem keeps_makeGcmTag : Keeps rel (makeGcmTag env) := by
  refine keeps_bind (keeps_requireCircuit _) fun _ => keeps_bind keeps_readU16 fun _ => ?_
  refine keeps_bind (keeps_require _) fun _ => keeps_bind (keeps_readExact _) fun _ => ?_
  refine keeps_bind (keeps_unlogged events fun _ => rfl) fun _ => ?_
  refine keeps_bind keeps_readU32 fun _ => keeps_bind keeps_get fun _ => ?_
  refine keeps_bind (keeps_require _) fun _ => ?_
  split
  · exact keeps_abort
  · refine keeps_bind (keeps_ofOption _) fun _ => keeps_bind (keeps_record (logs _ rfl)) fun _ => ?_
    refine keeps_bind keeps_tick fun _ => keeps_bind (keeps_ofOption _) fun _ => ?_
    exact keeps_require _

theorem keeps_verifyGcmTag : Keeps rel (verifyGcmTag env) := by
  refine keeps_bind keeps_get fun _ => keeps_bind (keeps_require _) fun _ => ?_
  refine keeps_bind keeps_readU64 fun _ => keeps_bind keeps_readU16 fun _ => ?_
  refine keeps_bind (keeps_require _) fun _ => keeps_bind (keeps_readExact _) fun _ => ?_
  refine keeps_bind keeps_readU32 fun _ => keeps_bind (keeps_require _) fun _ => ?_
  refine keeps_bind (keeps_readExact _) fun _ => keeps_bind (keeps_readExact _) fun _ => ?_
  refine keeps_bind (keeps_ofOption _) fun _ => keeps_bind (keeps_record (logs _ rfl)) fun _ => ?_
  refine keeps_bind (keeps_requireCircuit _) fun _ => keeps_bind keeps_tick fun _ => ?_
  refine keeps_bind (keeps_ofOption _) fun _ => ?_
  refine keeps_bind (keeps_require _) fun _ => keeps_ite ?_ ?_
  · exact keeps_ite (keeps_write _) keeps_fail
  · refine keeps_bind ?_ fun _ => keeps_ite (keeps_write _) (keeps_pure _)
    exact keeps_logSession fun session => Logs.one session.log (logs _ rfl)

theorem keeps_keystreamBatch (records : List RecordDims) (nblocks batch : ℕ) :
    Keeps rel (keystreamBatch env records nblocks batch) := by
  refine keeps_bind keeps_libraryRequest fun _ => keeps_bind (keeps_require _) fun _ => ?_
  refine keeps_bind (keeps_ofOption _) fun _ => keeps_bind keeps_get fun _ => ?_
  refine keeps_bind (keeps_record (logs _ rfl)) fun _ => keeps_bind keeps_tick fun _ => ?_
  exact keeps_require _

theorem keeps_deriveKeystreamBlocks : Keeps rel (deriveKeystreamBlocks env) := by
  refine keeps_bind (keeps_requireCircuit _) fun _ => keeps_bind keeps_readU32 fun _ => ?_
  refine keeps_bind (keeps_require _) fun _ => ?_
  refine keeps_bind (keeps_collect (fun _ => keeps_readRecordDims) _) fun _ => ?_
  refine keeps_bind (keeps_record (logs _ rfl)) fun _ => keeps_bind keeps_get fun _ => ?_
  exact keeps_bind (keeps_require _) fun _ => keeps_forEach (keeps_keystreamBatch logs _ _) _

theorem keeps_readKeyCommitment : Keeps rel readKeyCommitment := by
  refine keeps_bind keeps_get fun _ => keeps_bind (keeps_require _) fun _ => ?_
  refine keeps_bind (keeps_readExact _) fun _ => ?_
  exact keeps_logSession fun session => Logs.one session.log (logs _ rfl)

theorem keeps_releaseKey : Keeps rel (releaseKey env) := by
  refine keeps_bind keeps_get fun _ => keeps_bind (keeps_require _) fun _ => ?_
  refine keeps_bind ?_ fun _ => keeps_write _
  exact keeps_logSession fun session => Logs.one session.log (logs _ rfl)

theorem keeps_rotateKeyOp : Keeps rel (rotateKeyOp env) := by
  refine keeps_bind keeps_get fun _ => keeps_bind (keeps_require _) fun _ => ?_
  refine keeps_bind (keeps_requireCircuit _) fun _ => keeps_bind (keeps_requireCircuit _) fun _ => ?_
  refine keeps_bind (keeps_readExact _) fun _ => keeps_bind (keeps_ofOption _) fun direction => ?_
  refine keeps_bind (keeps_require _) fun _ => keeps_bind keeps_tick fun _ => ?_
  refine keeps_bind (keeps_ofOption _) fun _ => ?_
  cases direction with
  | client =>
      refine keeps_bind ?_ fun _ => keeps_bind (keeps_makeGcmShareFor _) fun _ => ?_
      all_goals exact keeps_logSession fun session => Logs.one session.log (logs _ rfl)
  | server =>
      refine keeps_bind ?_ fun _ => keeps_bind (keeps_makeGcmShareFor _) fun _ => ?_
      all_goals exact keeps_logSession fun session => Logs.one session.log (logs _ rfl)

theorem keeps_dispatch {header : MessageHeader} {handler : Handler Server Unit}
    (found : dispatch env header = some handler)
    (encrypts : header = .aesEnc → ∀ event : Event, event.ofEncryption = true → events event) :
    Keeps rel handler := by
  cases header with
  | aesEnc =>
      cases found
      exact keeps_encryptBlocks (encrypts rfl)
  | gcmTag =>
      cases found
      exact keeps_makeGcmTag logs
  | gcmVerify =>
      cases found
      exact keeps_verifyGcmTag logs
  | ksDerive =>
      cases found
      exact keeps_deriveKeystreamBlocks logs
  | keyCommit =>
      cases found
      exact keeps_readKeyCommitment logs
  | keyRelease =>
      cases found
      exact keeps_releaseKey logs
  | rotateKey =>
      cases found
      exact keeps_rotateKeyOp logs
  | _ => cases found

end Others

/-- A relation that does not depend on the log is kept by the handlers of all messages. -/
theorem keeps_dispatched {rel : Server → Server → Prop} [SessionBlind rel] {header : MessageHeader}
    {handler : Handler Server Unit} (found : dispatch env header = some handler) :
    Keeps rel handler :=
  keeps_dispatch (fun _ _ => trivial) found fun _ _ _ => trivial

theorem keeps_readHeaderDrainingEncryption {rel : Server → Server → Prop} [SessionBlind rel]
    (fuel : ℕ) : Keeps rel (readHeaderDrainingEncryption env fuel) := by
  induction fuel with
  | zero => exact keeps_fail
  | succ fuel ih =>
      refine keeps_bind keeps_readSingleHeader fun header => ?_
      refine keeps_bind (keeps_modifySession _) fun _ => ?_
      split
      · exact keeps_bind (keeps_dispatched ‹_›) fun _ => ih
      · exact keeps_pure _

end LogBlind

section Streams

theorem ensures_readSingleHeader :
    Ensures readSingleHeader (fun _ after => after.inbox.length < s.inbox.length) s := by
  refine Ensures.bind ((ensures_readExact 1).mono ?_)
  rintro bytes _ ⟨available, _, rfl⟩
  intro header after ended
  have silent : Silent inbox (Handler.ofOption (bytes.head?.bind MessageHeader.ofByte)) :=
    keeps_ofOption _
  have same := silent.of_returned ended
  rw [same, List.length_drop]
  omega

/-- What is left of the stream after a header and the handler it dispatches to. -/
theorem dispatched_shorter {header : MessageHeader} {handler : Handler Server Unit}
    {headed handled : Server} (found : dispatch env header = some handler)
    (read : readSingleHeader s = (.returned header, headed))
    (ended : handler { headed with session := { headed.session with
      log := .message header :: headed.session.log } } = (.returned (), handled)) :
    handled.inbox.length < s.inbox.length := by
  have shorter := ensures_readSingleHeader _ _ read
  have kept : Keeps Shrinks handler := keeps_dispatched found
  have shrinks := kept { headed with session := { headed.session with
    log := .message header :: headed.session.log } }
  rw [ended] at shrinks
  exact lt_of_le_of_lt shrinks shorter

/-- More rounds than bytes received do not change what the loop does. -/
theorem readHeaderDrainingEncryption_fuel {fuel more : ℕ} (enough : s.inbox.length < fuel)
    (enoughMore : s.inbox.length < more) :
    readHeaderDrainingEncryption env fuel s = readHeaderDrainingEncryption env more s := by
  induction fuel generalizing s more with
  | zero => omega
  | succ fuel ih =>
      rcases more with _ | more
      · omega
      · refine bind_congr_of_returned fun header headed read => ?_
        refine bind_congr_of_returned fun _ recorded noted => ?_
        cases noted
        rcases found : dispatch env header with _ | handler
        · rfl
        · refine bind_congr_of_returned fun _ handled ended => ?_
          have shorter := dispatched_shorter found read ended
          exact ih (by omega) (by omega)

theorem attest_fuel {fuel more : ℕ} (enough : s.inbox.length < fuel)
    (enoughMore : s.inbox.length < more) : attest env fuel s = attest env more s := by
  rw [attest_eq_drain, attest_eq_drain]
  exact bind_congr_of_eq (readHeaderDrainingEncryption_fuel enough enoughMore)

theorem ensures_readSome :
    Ensures (readSome env) (fun _ after => after.inbox.length < s.inbox.length) s := by
  refine Ensures.bind (ensures_tick.mono ?_)
  rintro now _ ⟨_, rfl⟩
  refine Ensures.get_bind (Ensures.require_bind fun nonempty => Ensures.modify_bind ?_)
  refine Ensures.pure ?_
  have positive := List.length_pos_iff.mpr nonempty
  have available := List.length_take_le' (min (env.readSize now) maxPlainLength) s.inbox
  simp only [List.length_drop]
  change 0 < (s.inbox.take _).length at positive
  omega

/-- Every record of a transcript is at least one byte of the stream. -/
theorem readTranscript_fuel {fuel more : ℕ} (enough : s.inbox.length < fuel)
    (enoughMore : s.inbox.length < more) :
    readTranscript env fuel s = readTranscript env more s := by
  induction fuel generalizing s more with
  | zero => omega
  | succ fuel ih =>
      rcases more with _ | more
      · omega
      · refine bind_congr_of_returned fun bytes received read => ?_
        refine bind_congr_of_returned fun _ appended extended => ?_
        cases extended
        refine bind_congr_of_returned fun waiting asked polled => ?_
        have shorter := ensures_readSome _ _ read
        have kept : Keeps Shrinks (pending env) := keeps_pending
        have shrinks := kept { received with transcript := received.transcript ++ bytes }
        rw [polled] at shrinks
        have left : asked.inbox.length < s.inbox.length := lt_of_le_of_lt shrinks shorter
        split
        · exact ih (by omega) (by omega)
        · rfl

end Streams

section States

/-- The states to which the handler of `state` may lead when it returns. -/
def Follows (state after : ServerState) : Prop :=
  after = state.next ∨ state.value < after.value ∧ after.value ≤ ServerState.makingKs.value

/-- Run in `state`, the handler only returns in states that satisfy `goal`. -/
def Settles {α : Type} (state : ServerState) (goal : ServerState → Prop)
    (prog : Handler Server α) : Prop :=
  ∀ s : Server, s.state = state → Ensures prog (fun _ after => goal after.state) s

variable {α β : Type} {state : ServerState} {goal : ServerState → Prop}

theorem settles_bind {prog : Handler Server α} {next : α → Handler Server β}
    (silent : Silent Server.state prog) (rest : ∀ value, Settles state goal (next value)) :
    Settles state goal (prog >>= next) := by
  intro s inState
  refine Ensures.silent_bind Server.state silent fun value after same => ?_
  exact rest value after (same.trans inState)

theorem settles_last {prog : Handler Server α} {next : α → Handler Server β}
    (rest : ∀ value between, Settles between goal (next value)) :
    Settles state goal (prog >>= next) :=
  fun _ _ => Ensures.bind fun value after _ => rest value after.state after rfl

theorem settles_setState {target : ServerState} (reached : goal target) :
    Settles state goal (setState target) := fun _ _ => Ensures.modify reached

theorem settles_advance (reached : goal state.next) : Settles state goal advance := by
  intro s inState
  refine Ensures.modify ?_
  rw [← inState] at reached
  exact reached

theorem settles_abort : Settles state goal (Handler.abort : Handler Server α) :=
  fun _ _ => Ensures.abort

theorem settles_ite {condition : Prop} [Decidable condition] {whenTrue whenFalse : Handler Server α}
    (left : Settles state goal whenTrue) (right : Settles state goal whenFalse) :
    Settles state goal (if condition then whenTrue else whenFalse) :=
  fun s inState => Ensures.ite (fun _ => left s inState) fun _ => right s inState

theorem settles_acknowledge (header : MessageHeader) (reached : goal state.next) :
    Settles state goal (acknowledge env header) :=
  settles_bind (keeps_write _) fun _ => settles_advance reached

theorem settles_accept (reached : goal state.next) : Settles state goal (accept env) := by
  refine settles_bind keeps_tick fun _ => settles_bind (keeps_ofOption _) fun _ => ?_
  exact settles_bind (keeps_modify fun _ => rfl) fun _ => settles_advance reached

theorem settles_writeHandshakeDone (waiting : goal .makingKs) (idle : goal .circuitPreproc) :
    Settles state goal (writeHandshakeDone env) := by
  refine settles_last fun _ _ => settles_ite ?_ ?_
  · refine settles_last fun _ _ => settles_last fun _ _ => settles_last fun _ _ => ?_
    exact settles_setState waiting
  · exact settles_last fun _ _ => settles_setState idle

theorem settles_doHandshake (idle : goal .handshakeDone) (waiting : goal .makingKs) :
    Settles state goal (doHandshake env) := by
  refine settles_last fun _ _ => settles_last fun _ _ => settles_last fun _ _ => ?_
  refine settles_ite (settles_setState idle) (settles_last fun _ _ => settles_last fun _ _ => ?_)
  refine settles_last fun _ _ => settles_last fun _ _ => ?_
  exact settles_setState waiting

theorem settles_doPreproc (shouldPreproc : Bool) (skipped : shouldPreproc = false → goal .readingKs)
    (reached : goal state.next) : Settles state goal (doPreproc env shouldPreproc) := by
  have preprocesses : Settles state goal (do
      let server ← Handler.get
      Handler.forEach (preprocCircuit env) (preprocOrder server.session.mode)
      advance) := by
    refine settles_bind keeps_get fun _ => ?_
    exact settles_bind (keeps_forEach keeps_preprocCircuit _) fun _ => settles_advance reached
  intro s inState
  apply Ensures.ite
  · intro off
    exact settles_setState (skipped off) s inState
  · intro _
    exact preprocesses s inState

theorem settles_readMaskCommitments (reached : goal state.next) :
    Settles state goal readMaskCommitments := by
  refine settles_bind keeps_get fun _ => settles_ite (settles_advance reached) ?_
  refine settles_bind keeps_readSingleHeader fun _ => settles_bind (keeps_require _) fun _ => ?_
  refine settles_bind (keeps_readExact _) fun _ => ?_
  exact settles_bind (keeps_modifySession _) fun _ => settles_advance reached

theorem settles_createNewShare (reached : goal state.next) :
    Settles state goal (createNewShare env) := by
  refine settles_bind keeps_get fun _ => settles_bind (keeps_ofOption _) fun _ => ?_
  refine settles_bind keeps_tick fun _ => settles_bind (keeps_modify fun _ => rfl) fun _ => ?_
  refine settles_bind (keeps_require _) fun _ => settles_ite (settles_advance reached) ?_
  refine settles_bind (keeps_ofOption _) fun _ => settles_bind keeps_tick fun _ => ?_
  refine settles_bind (keeps_modify fun _ => rfl) fun _ => ?_
  exact settles_bind (keeps_require _) fun _ => settles_advance reached

theorem settles_sendAdditiveShare (reached : goal state.next) :
    Settles state goal (sendAdditiveShare env) := by
  refine settles_bind keeps_get fun _ => settles_bind (keeps_require _) fun _ => ?_
  exact settles_bind (keeps_write _) fun _ => settles_advance reached

theorem settles_doPskBinder (reached : goal state.next) :
    Settles state goal (doPskBinder env) := by
  refine settles_bind keeps_get fun _ => settles_ite (settles_advance reached) ?_
  refine settles_bind keeps_readSingleHeader fun _ => settles_bind (keeps_require _) fun _ => ?_
  refine settles_bind (keeps_requireCircuit _) fun _ => settles_bind keeps_tick fun _ => ?_
  refine settles_bind (keeps_require _) fun _ => settles_bind (keeps_modify fun _ => rfl) fun _ => ?_
  exact settles_advance reached

theorem settles_finishTph (reached : goal .writingHsRecv) :
    Settles state goal (finishTph env) := by
  refine settles_last fun _ _ => settles_last fun _ _ => settles_last fun _ _ => ?_
  refine settles_last fun _ _ => settles_last fun _ _ => settles_last fun _ _ => ?_
  exact settles_last fun _ _ => settles_setState reached

theorem settles_writeHsRecv (reached : goal state.next) :
    Settles state goal (writeHsRecv env) := by
  refine settles_bind keeps_pending fun _ => settles_ite settles_abort ?_
  exact settles_acknowledge _ reached

theorem settles_doEctf (reached : goal state.next) : Settles state goal (doEctf env) := by
  refine settles_bind keeps_readSingleHeader fun _ => settles_bind (keeps_require _) fun _ => ?_
  refine settles_bind (keeps_modifySession _) fun _ => ?_
  refine settles_bind keeps_readSingleHeader fun _ => settles_bind (keeps_require _) fun _ => ?_
  refine settles_bind keeps_libraryRequest fun _ => settles_bind (keeps_ofOption _) fun _ => ?_
  exact settles_bind (keeps_modify fun _ => rfl) fun _ => settles_advance reached

theorem settles_doKs (reached : goal state.next) : Settles state goal (doKs env) := by
  refine settles_bind keeps_get fun _ => settles_bind (keeps_dereference _) fun _ => ?_
  refine settles_bind (keeps_modifySession _) fun _ => settles_bind keeps_tick fun _ => ?_
  refine settles_bind (keeps_ofOption _) fun _ => settles_bind (keeps_modify fun _ => rfl) fun _ => ?_
  exact settles_advance reached

theorem settles_doCertWait (reached : goal state.next) :
    Settles state goal (doCertWait env) := by
  refine settles_bind keeps_get fun _ => settles_ite (settles_advance reached) ?_
  refine settles_bind keeps_readSingleHeader fun _ => settles_bind (keeps_require _) fun _ => ?_
  refine settles_bind keeps_readU64 fun _ => settles_bind (keeps_reserveTranscript _) fun _ => ?_
  refine settles_bind keeps_get fun _ => ?_
  refine settles_bind (keeps_readTranscript _) fun _ => settles_bind keeps_get fun _ => ?_
  refine settles_bind (keeps_require _) fun _ => settles_bind (keeps_modify fun _ => rfl) fun _ => ?_
  exact settles_advance reached

theorem settles_writeCertRecv (reached : goal state.next) :
    Settles state goal (writeCertRecv env) := by
  refine settles_bind keeps_get fun _ => settles_bind (keeps_modifySession _) fun _ => ?_
  exact settles_bind (keeps_write _) fun _ => settles_advance reached

theorem settles_deriveTs (reached : goal state.next) : Settles state goal (deriveTs env) := by
  refine settles_bind keeps_readSingleHeader fun _ => settles_bind (keeps_require _) fun _ => ?_
  refine settles_bind (keeps_dereference _) fun _ => settles_bind keeps_get fun _ => ?_
  refine settles_bind keeps_tick fun _ => settles_bind (keeps_ofOption _) fun _ => ?_
  exact settles_bind (keeps_modifySession _) fun _ => settles_advance reached

theorem settles_deriveGcmShares (reached : goal state.next) :
    Settles state goal (deriveGcmShares env) := by
  refine settles_bind keeps_readSingleHeader fun _ => settles_bind (keeps_require _) fun _ => ?_
  refine settles_bind (keeps_dereference _) fun _ => settles_bind keeps_get fun _ => ?_
  refine settles_bind (keeps_makeGcmShareFor _) fun _ => ?_
  refine settles_bind (keeps_makeGcmShareFor _) fun _ => ?_
  exact settles_bind (keeps_modifySession _) fun _ => settles_advance reached

theorem settles_deriveRes (reached : goal state.next) : Settles state goal (deriveRes env) := by
  refine settles_bind keeps_readSingleHeader fun _ => settles_bind (keeps_require _) fun _ => ?_
  refine settles_bind (keeps_dereference _) fun _ => settles_bind keeps_get fun _ => ?_
  refine settles_bind keeps_tick fun _ => settles_bind (keeps_ofOption _) fun _ => ?_
  exact settles_bind (keeps_modify fun _ => rfl) fun _ => settles_advance reached

theorem settles_derivePsk (reached : goal state.next) : Settles state goal (derivePsk env) := by
  refine settles_bind (keeps_modify fun _ => rfl) fun _ => settles_bind keeps_get fun _ => ?_
  refine settles_bind (keeps_readHeaderDrainingEncryption _) fun _ => settles_ite ?_ ?_
  · exact settles_bind (keeps_modify fun _ => rfl) fun _ => settles_advance reached
  · refine settles_bind (keeps_ofOption _) fun _ => settles_bind (keeps_requireCircuit _) fun _ => ?_
    refine settles_bind keeps_get fun _ => settles_bind keeps_tick fun _ => ?_
    refine settles_bind (keeps_ofOption _) fun _ => settles_bind (keeps_modifySession _) fun _ => ?_
    exact settles_advance reached

theorem settles_writeCompletedPsk (reached : goal state.next) :
    Settles state goal (writeCompletedPsk env) :=
  settles_bind keeps_get fun _ =>
    settles_ite (settles_advance reached) (settles_acknowledge _ reached)

theorem settles_attestAndShutdown (reached : goal .done) :
    Settles state goal (attestAndShutdown env) := by
  refine settles_last fun _ _ => settles_ite ?_ (settles_setState reached)
  exact settles_last fun _ _ => settles_setState reached

theorem settles_serve (shouldPreproc : Bool) (state : ServerState) :
    Settles state (Follows state) (serve env shouldPreproc state) := by
  have next : ∀ state : ServerState, Follows state state.next := fun _ => Or.inl rfl
  cases state with
  | accept => exact settles_accept (next _)
  | handshake => exact settles_doHandshake (next _) (Or.inr (by decide))
  | handshakeDone => exact settles_writeHandshakeDone (Or.inr (by decide)) (next _)
  | circuitPreproc => exact settles_doPreproc _ (fun _ => Or.inr (by decide)) (next _)
  | maskCommit => exact settles_readMaskCommitments (next _)
  | readingKs => exact settles_last fun _ _ => settles_setState (next _)
  | makingKs => exact settles_createNewShare (next _)
  | writingKs => exact settles_sendAdditiveShare (next _)
  | pskBinder => exact settles_doPskBinder (next _)
  | readingSks =>
      exact settles_bind (keeps_readKeyshare _) fun _ => settles_advance (next _)
  | finishingTph => exact settles_finishTph (next _)
  | writingHsRecv => exact settles_writeHsRecv (next _)
  | ectfWait => exact settles_doEctf (next _)
  | ectfDone => exact settles_acknowledge _ (next _)
  | ksWait => exact settles_doKs (next _)
  | ksDone => exact settles_acknowledge _ (next _)
  | certWait => exact settles_doCertWait (next _)
  | certRecv => exact settles_writeCertRecv (next _)
  | deriveTs => exact settles_deriveTs (next _)
  | gcmShareDerive => exact settles_deriveGcmShares (next _)
  | gcmShareDone => exact settles_acknowledge _ (next _)
  | deriveRes => exact settles_deriveRes (next _)
  | resDone => exact settles_acknowledge _ (next _)
  | derivePsk => exact settles_derivePsk (next _)
  | pskDone => exact settles_writeCompletedPsk (next _)
  | shutdown => exact settles_attestAndShutdown (next _)
  | done => exact settles_abort

theorem Follows.value_lt {state after : ServerState} (follows : Follows state after)
    (notDone : state ≠ .done) : state.value < after.value := by
  rcases follows with rfl | ⟨later, _⟩
  · cases state with
    | done => exact absurd rfl notDone
    | _ => decide
  · exact later

theorem value_le_done (state : ServerState) : state.value ≤ ServerState.done.value := by
  cases state <;> decide

/-- More rounds than states do not change what the loop of `run` does. -/
theorem runLoop_fuel {stopState : ServerState} {shouldPreproc : Bool} {fuel more : ℕ}
    (enough : ServerState.done.value < s.state.value + fuel)
    (enoughMore : ServerState.done.value < s.state.value + more) :
    runLoop env stopState shouldPreproc fuel s = runLoop env stopState shouldPreproc more s := by
  have bounded := value_le_done s.state
  induction fuel generalizing s more with
  | zero => omega
  | succ fuel ih =>
      rcases more with _ | more
      · omega
      · refine bind_congr_of_returned fun _ current got => ?_
        cases got
        split
        · rfl
        · rename_i running
          refine bind_congr_of_returned fun _ served ended => ?_
          have notDone : s.state ≠ .done := by
            intro isDone
            rw [isDone] at running
            exact running (value_le_done stopState)
          have later := (settles_serve shouldPreproc s.state s rfl _ _ ended).value_lt notDone
          exact ih (by omega) (by omega) (value_le_done _)

theorem ensures_acceptAndReadMode :
    Ensures (acceptAndReadMode env)
      (fun _ after => after.state.value ≤ ServerState.makingKs.value) s := by
  refine Ensures.bind fun _ _ _ => Ensures.bind fun _ _ _ => Ensures.bind fun _ _ _ => ?_
  refine Ensures.bind fun _ shaken _ => Ensures.get_bind (Ensures.require_bind fun _ => ?_)
  have early : Settles shaken.state (fun state => state.value ≤ ServerState.makingKs.value)
      (writeHandshakeDone env) := settles_writeHandshakeDone (by decide) (by decide)
  refine Ensures.bind ((early shaken rfl).mono fun _ written isEarly => ?_)
  refine Ensures.silent_bind Server.state keeps_readSingleHeader fun _ _ same => ?_
  refine Ensures.require_bind fun _ => Ensures.pure ?_
  rw [same]
  exact isEarly

end States

section Prescribed

/-- The states through which `run_resumption` goes. -/
def prescribedStates (stopState : ServerState) (alreadyAccepted : Bool) : List ServerState :=
  (resumptionStates.drop (if alreadyAccepted then 3 else 0)).takeWhile
    fun state => state.value < stopState.value

theorem isChain_prescribedStates (stopState : ServerState) (alreadyAccepted : Bool) :
    (prescribedStates stopState alreadyAccepted).IsChain
      fun state following => following = state.next := by
  have chain : resumptionStates.IsChain (fun state following => following = state.next) := by
    decide
  have suffixChain := chain.drop (if alreadyAccepted then 3 else 0)
  rw [← List.takeWhile_append_dropWhile (p := fun state => state.value < stopState.value)
    (l := resumptionStates.drop (if alreadyAccepted then 3 else 0))] at suffixChain
  exact suffixChain.left_of_append

theorem head_prescribedStates {stopState : ServerState} {alreadyAccepted : Bool}
    {state : ServerState} (isHead : (prescribedStates stopState alreadyAccepted).head? = some state) :
    state = .accept ∨ state = .circuitPreproc := by
  rw [prescribedStates, List.head?_takeWhile] at isHead
  have first := (Option.filter_eq_some_iff.mp isHead).1
  cases alreadyAccepted with
  | false =>
      cases first
      exact Or.inl rfl
  | true =>
      cases first
      exact Or.inr rfl

end Prescribed

end Server

end PracticalCrypto.Surf
