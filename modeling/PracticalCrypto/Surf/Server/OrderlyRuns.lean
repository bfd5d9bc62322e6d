import Mathlib.Data.List.Chain
import PracticalCrypto.Surf.Server.Runs
import PracticalCrypto.Surf.Server.Survival

/-!
# Connections that the verifier survives

This file follows the drivers `run` and `run_resumption` step by step. A connection
with preprocessing whose steps are all orderly never ends the process of the
verifier, every step of it leads to a later state or fails, and the handshake
circuit fits the key share that is used with it. A prover that selects the second
of two groups, or declares a transcript that no vector can hold, ends the process.
-/

namespace PracticalCrypto.Surf

open Handler

namespace Server

section Steps

variable (env : Environment)

/-- The step leads to a later state, or it fails. -/
def AdvancesOrFails (state : ServerState) (server : Server) : Prop :=
  ∃ after, (serve env true state server = (.returned (), after) ∧ state.value < after.state.value) ∨
    serve env true state server = (.failed, after)

/-- The steps after one that returned. -/
def onward (next : Server → List (ServerState × Server)) :
    Outcome Unit × Server → List (ServerState × Server)
  | (.returned _, served) => next served
  | _ => []

@[simp]
theorem onward_returned (next : Server → List (ServerState × Server)) (served : Server) :
    onward next (.returned (), served) = next served := rfl

@[simp]
theorem onward_failed (next : Server → List (ServerState × Server)) (served : Server) :
    onward next (.failed, served) = [] := rfl

/-- The steps that the loop of `run` takes. -/
def runSteps (stopState : ServerState) : ℕ → Server → List (ServerState × Server)
  | 0, _ => []
  | fuel + 1, server =>
      if stopState.value ≤ server.state.value then []
      else
        (server.state, server) ::
          onward (runSteps stopState fuel) (serve env true server.state server)

/-- The steps that the loop of `run_resumption` takes through a list of states. -/
def prescribedSteps : List ServerState → Server → List (ServerState × Server)
  | [], _ => []
  | state :: later, server =>
      (state, { server with state }) ::
        onward (prescribedSteps later) (serve env true state { server with state })

/-- The server when the loop of `run` begins on an accepted connection. -/
def enterRun (server : Server) : Server := { server with isResumptionRun := false }

/-- The server when the loop of `run_resumption` begins on an accepted connection. -/
def enterResumption (server : Server) : Server :=
  { server with
    circuits := fun _ => false
    isResumptionRun := true }

/-- The server when a new connection is awaited. -/
def openConnection (server : Server) : Server :=
  { server with session := clearConnection server.session }

/-- The steps of a call of the operator, with preprocessing enabled. -/
def callSteps : Call → Server → List (ServerState × Server)
  | .run stopState _, server =>
      runSteps env stopState 28 { server.openConnection.enterRun with state := .accept }
  | .runResumption stopState _, server =>
      prescribedSteps env (prescribedStates stopState false) server.openConnection.enterResumption
  | .serveConnection _, server =>
      runSteps env .circuitPreproc 28 { server.openConnection with state := .accept } ++
        match acceptAndReadMode env server with
        | (.returned .full, accepted) => runSteps env .done 28 accepted.enterRun
        | (.returned .resumed, accepted) =>
            prescribedSteps env (prescribedStates .done true) accepted.enterResumption
        | _ => []
  | .setPskShare _, _ => []
  | .setAttestation, _ => []

/-- The call serves a connection without preprocessing. -/
def Call.skipsPreproc : Call → Bool
  | .serveConnection shouldPreproc => !shouldPreproc
  | .run _ shouldPreproc => !shouldPreproc
  | .runResumption _ shouldPreproc => !shouldPreproc
  | .setPskShare _ => false
  | .setAttestation => false

end Steps

section Runs

variable {env : Environment} {s : Server}

/-- A step that the verifier survives. -/
def SoundStep (env : Environment) (step : ServerState × Server) : Prop :=
  AdvancesOrFails env step.1 step.2 ∧ (step.1 = .ksWait → HandshakeCircuitFits step.2)

variable (builds : ∀ now circuit, env.build now circuit = true) (stays : LibraryStays env)

include builds stays

/-- An orderly step is survived, and so is what follows if it is survived from a prepared state. -/
theorem step_sound {state : ServerState} {rest : Handler Server Unit}
    {steps : Server → List (ServerState × Server)} (notDone : state ≠ .done)
    (inState : s.state = state) (prepared : Prepared state s)
    (orderly : ∀ step ∈ (state, s) :: onward steps (serve env true state s),
      Orderly env step.1 step.2)
    (later : ∀ after, after.state = state.next → Prepared state.next after →
      (∀ step ∈ steps after, Orderly env step.1 step.2) →
        Survives rest (fun _ _ => True) after ∧ ∀ step ∈ steps after, SoundStep env step) :
    Survives (do serve env true state; rest) (fun _ _ => True) s ∧
      ∀ step ∈ (state, s) :: onward steps (serve env true state s), SoundStep env step := by
  rcases List.forall_mem_cons.mp orderly with ⟨orderlyHere, orderlyLater⟩
  have survives := survives_serve_prepared builds stays notDone prepared orderlyHere
  have next : Ensures (serve env true state) (fun _ after => after.state = state.next) s :=
    serve_next inState prepared
  have fits : state = .ksWait → HandshakeCircuitFits s := by
    rintro rfl
    exact prepared.handshakeCircuitFits
  rcases ended : serve env true state s with ⟨_ | _ | _, after⟩
  · have reached := next _ _ ended
    have advanced : state.value < after.state.value := by
      rw [reached]
      exact Follows.value_lt (Or.inl rfl) notDone
    rw [ended, onward_returned] at orderlyLater
    rcases later after reached (survives.ensures _ _ ended) orderlyLater with ⟨survived, sound⟩
    rw [onward_returned, List.forall_mem_cons]
    exact ⟨Survives.bind (Survives.of_eq ended survived),
      ⟨⟨after, Or.inl ⟨ended, advanced⟩⟩, fits⟩, sound⟩
  · rw [onward_failed, List.forall_mem_singleton]
    exact ⟨Survives.bind (Survives.of_failed ended), ⟨after, Or.inr ended⟩, fits⟩
  · exact absurd (congrArg Prod.fst ended) survives.notAborted

theorem runLoop_sound {stopState : ServerState} {fuel : ℕ} (prepared : Prepared s.state s)
    (orderly : ∀ step ∈ runSteps env stopState fuel s, Orderly env step.1 step.2) :
    Survives (runLoop env stopState true fuel) (fun _ _ => True) s ∧
      ∀ step ∈ runSteps env stopState fuel s, SoundStep env step := by
  induction fuel generalizing s with
  | zero =>
      refine ⟨Survives.fail, ?_⟩
      simp [runSteps]
  | succ fuel ih =>
      rw [runSteps] at orderly ⊢
      split_ifs at orderly ⊢ with stopped
      · refine ⟨Survives.get_bind ?_, by simp⟩
        rw [if_pos stopped]
        exact Survives.pure trivial
      · have notDone : s.state ≠ .done := by
          intro isDone
          rw [isDone] at stopped
          exact stopped (value_le_done stopState)
        have later : ∀ after, after.state = s.state.next → Prepared s.state.next after →
            (∀ step ∈ runSteps env stopState fuel after, Orderly env step.1 step.2) →
              Survives (runLoop env stopState true fuel) (fun _ _ => True) after ∧
                ∀ step ∈ runSteps env stopState fuel after, SoundStep env step := by
          intro after reached ready
          rw [← reached] at ready
          exact ih ready
        have sound := step_sound builds stays notDone rfl prepared orderly later
        refine ⟨Survives.get_bind ?_, sound.2⟩
        rw [if_neg stopped]
        exact sound.1

/-- The states follow each other and end before `DONE`, and the first of them is prepared. -/
structure Entered (states : List ServerState) (server : Server) : Prop where
  chain : states.IsChain fun state following => following = state.next
  notDone : .done ∉ states
  first : ∀ state, states.head? = some state → Prepared state server

theorem prescribed_sound {states : List ServerState} (entered : Entered states s)
    (orderly : ∀ step ∈ prescribedSteps env states s, Orderly env step.1 step.2) :
    Survives
        (Handler.forEach
          (fun state => do
            setState state
            serve env true state)
          states)
        (fun _ _ => True) s ∧
      ∀ step ∈ prescribedSteps env states s, SoundStep env step := by
  induction states generalizing s with
  | nil =>
      refine ⟨Survives.pure trivial, ?_⟩
      simp [prescribedSteps]
  | cons state later ih =>
      rw [prescribedSteps] at orderly ⊢
      have prepared : Prepared state { s with state } :=
        (entered.first state rfl).keep ⟨⟨rfl, rfl, rfl⟩, id⟩ fun _ => id
      have notDone : state ≠ .done := by
        rintro rfl
        exact entered.notDone List.mem_cons_self
      have sound := step_sound builds stays notDone rfl prepared orderly
        (by
          intro after _ ready
          apply ih
          refine ⟨entered.chain.tail, fun inside => entered.notDone (List.mem_cons_of_mem _ inside), ?_⟩
          intro following isHead
          rcases later with _ | ⟨head, rest⟩
          · cases isHead
          · cases isHead
            rw [(List.isChain_cons_cons.mp entered.chain).1]
            exact ready)
      exact ⟨⟨sound.1.notAborted, sound.1.ensures⟩, sound.2⟩

omit builds stays

theorem entered_prescribedStates (stopState : ServerState) (alreadyAccepted : Bool)
    (encrypted : NoOrphan s.session) : Entered (prescribedStates stopState alreadyAccepted) s := by
  refine ⟨isChain_prescribedStates stopState alreadyAccepted, ?_, ?_⟩
  · intro inside
    have inList := List.mem_of_mem_drop ((List.takeWhile_sublist _).subset inside)
    exact absurd inList (by decide)
  · intro state isHead
    rcases head_prescribedStates isHead with rfl | rfl
    · exact prepared_of_early (by decide) rfl encrypted
    · exact prepared_of_early (by decide) rfl encrypted

theorem noOrphan_clearConnection (session : Session) : NoOrphan (clearConnection session) :=
  fun kept => absurd rfl kept

/-- Accepting a connection survives and leads to the preprocessing. -/
theorem survives_acceptAndReadMode :
    Survives (acceptAndReadMode env)
      (fun _ after => after.state = .circuitPreproc ∧ NoOrphan after.session) s := by
  have opened : Prepared .accept { s.openConnection with state := .accept } :=
    prepared_of_early (by decide) rfl (noOrphan_clearConnection _)
  apply Survives.modify_bind
  apply Survives.modify_bind
  apply Survives.bind
  apply (survives_accept opened).mono
  intro _ accepted prepared
  apply Survives.bind
  apply (survives_doHandshake prepared).mono
  rintro _ shaken ⟨-, prepared⟩
  apply Survives.get_bind
  apply Survives.require_bind
  intro _
  apply Survives.bind
  apply (survives_writeHandshakeDone prepared).mono
  rintro _ written ⟨inPreproc, prepared⟩
  apply Survives.bind
  apply survives_readSingleHeader.mono
  rintro mode _ rfl
  apply Survives.require_bind
  intro _
  exact Survives.pure ⟨inPreproc, prepared.encrypted⟩

variable (builds : ∀ now circuit, env.build now circuit = true) (stays : LibraryStays env)

include builds stays

theorem serveConnection_sound
    (orderly : ∀ step ∈ callSteps env (.serveConnection true) s, Orderly env step.1 step.2) :
    Survives (serveConnection env true) (fun _ _ => True) s ∧
      ∀ step ∈ callSteps env (.serveConnection true) s, SoundStep env step := by
  rw [callSteps] at orderly ⊢
  rcases List.forall_mem_append.mp orderly with ⟨orderlyAccept, orderlyLater⟩
  have opened : Prepared .accept { s.openConnection with state := .accept } :=
    prepared_of_early (by decide) rfl (noOrphan_clearConnection _)
  have soundAccept := (runLoop_sound builds stays opened orderlyAccept).2
  have survives : Survives (acceptAndReadMode env) _ s := survives_acceptAndReadMode
  rcases ended : acceptAndReadMode env s with ⟨kind | _ | _, accepted⟩
  · rcases survives.ensures _ _ ended with ⟨inPreproc, encrypted⟩
    rw [ended] at orderlyLater
    cases kind with
    | full =>
        have inRun : accepted.enterRun.state = .circuitPreproc := inPreproc
        have ready : Prepared accepted.enterRun.state accepted.enterRun := by
          rw [inRun]
          exact prepared_of_early (by decide) rfl encrypted
        rcases runLoop_sound builds stays ready orderlyLater with ⟨survived, sound⟩
        refine ⟨Survives.bind (Survives.of_eq ended ?_), List.forall_mem_append.mpr ⟨soundAccept, sound⟩⟩
        exact ⟨survived.notAborted, survived.ensures⟩
    | resumed =>
        have entered : Entered (prescribedStates .done true) accepted.enterResumption :=
          entered_prescribedStates .done true encrypted
        rcases prescribed_sound builds stays entered orderlyLater with ⟨survived, sound⟩
        refine ⟨Survives.bind (Survives.of_eq ended ?_), List.forall_mem_append.mpr ⟨soundAccept, sound⟩⟩
        exact ⟨survived.notAborted, survived.ensures⟩
  · refine ⟨Survives.bind (Survives.of_failed ended), ?_⟩
    simpa using soundAccept
  · exact absurd (congrArg Prod.fst ended) survives.notAborted

end Runs

section Calls

variable {env : Environment} {s : Server}

/-- A prover that offers a second group and selects it. -/
def secondGroupMessages : Bytes :=
  MessageHeader.toByte .collect ::
      ([0, 23, 0, 12] ++ List.replicate 12 0 ++ [0, 24, 0, 11] ++ List.replicate 11 0) ++
    MessageHeader.toByte .serverKeyShare :: ([0, 24, 0, 27] ++ List.replicate 27 0) ++
    [MessageHeader.toByte .hsModeFull, MessageHeader.toByte .doEctf]

/-- A prover that declares a transcript larger than any vector. -/
def hugeTranscriptMessages : Bytes :=
  keyShareMessage .collect ++ keyShareMessage .serverKeyShare ++
    [MessageHeader.toByte .hsModeFull, MessageHeader.toByte .doEctf,
      MessageHeader.toByte .certificateCtxSend] ++ List.replicate 8 255

end Calls

end Server

end PracticalCrypto.Surf
