import Mathlib.Data.List.Chain
import PracticalCrypto.Surf.Server.Refinement

/-!
# Whole runs of a verifier

A `Server` serves any number of connections, in either of its two drivers and
with failures at any point. This file follows the drivers through their states
and concludes that everything a `Server` ever does is a run of the abstract
machine. The only step of the machine whose guard depends on the order of the
states is the one that reveals the handshake secrets; `Ready` says what that
order guarantees.
-/

namespace PracticalCrypto.Surf.Server

open EventLog Handler Session

variable {env : Environment} {s : Server}

section Ready

/-- If the handshake is resumed, its circuit has been run on this connection. -/
def ResumedFed (session : Session) : Prop :=
  session.resumedHandshake = true →
    ∃ share, .handshakeCircuit true share ∈ currentConnection session.log

/-- What the earlier states of a connection have established on entry to a state. -/
def Ready : ServerState → Session → Prop
  | .ksDone, session => ResumedFed session
  | .certWait, session => ResumedFed session
  | .certRecv, session => MayReveal session.log
  | _, _ => True

theorem ready_of_early {state : ServerState} (early : state.value ≤ ServerState.makingKs.value)
    (session : Session) : Ready state session := by
  cases state with
  | ksDone => exact absurd early (by decide)
  | certWait => exact absurd early (by decide)
  | certRecv => exact absurd early (by decide)
  | _ => exact trivial

theorem ensures_doKs : Ensures (doKs env) (fun _ after => ResumedFed after.session) s := by
  refine Ensures.get_bind ?_
  refine Ensures.silent_bind session (keeps_dereference _) fun _ built same => ?_
  refine Ensures.modify_bind ?_
  refine Ensures.silent_bind session keeps_tick fun _ _ fed => Ensures.ofOption_bind fun _ _ => ?_
  refine Ensures.modify_bind (Ensures.modify ?_)
  rw [fed]
  intro resumed
  refine ⟨pskInput s.session, ?_⟩
  have wasResumed : s.session.resumedHandshake = true := by
    rw [← same]
    exact resumed
  rw [wasResumed]
  exact List.mem_cons_self

theorem ensures_doCertWait (fed : ResumedFed s.session) :
    Ensures (doCertWait env) (fun _ after => MayReveal after.session.log) s := by
  refine Ensures.get_bind (Ensures.ite (fun resumed => ?_) fun _ => ?_)
  · exact Ensures.modify (Or.inr (fed resumed))
  · refine Ensures.bind fun _ _ _ => Ensures.require_bind fun _ => ?_
    refine Ensures.bind fun _ _ _ => Ensures.bind fun _ _ _ => Ensures.get_bind ?_
    refine Ensures.bind fun _ _ _ => Ensures.get_bind (Ensures.require_bind fun enough => ?_)
    refine Ensures.modify_bind (Ensures.modify (Or.inl ⟨_, _, ?_, List.mem_cons_self⟩))
    omega

theorem ready_serve (shouldPreproc : Bool) {state : ServerState} (ready : Ready state s.session) :
    Ensures (serve env shouldPreproc state) (fun _ after => Ready state.next after.session) s := by
  cases state with
  | ksWait => exact ensures_doKs
  | ksDone =>
      intro _ after ended
      have silent : Silent session (acknowledge env .ksDone) := keeps_acknowledge .ksDone
      have same := silent.of_returned ended
      rw [same]
      exact ready
  | certWait => exact ensures_doCertWait ready
  | _ => exact fun _ _ _ => trivial

theorem steps_serve (shouldPreproc : Bool) {state : ServerState} (ready : Ready state s.session) :
    Steps (serve env shouldPreproc state) s := by
  cases state with
  | accept => exact Silent.traces keeps_accept
  | handshake => exact Silent.traces keeps_doHandshake
  | handshakeDone => exact Silent.traces keeps_writeHandshakeDone
  | circuitPreproc => exact Silent.traces (keeps_doPreproc _)
  | maskCommit => exact steps_readMaskCommitments
  | readingKs =>
      exact Silent.traces (keeps_bind (keeps_readKeyshare _) fun _ => keeps_setState _)
  | makingKs => exact Silent.traces silent_createNewShare
  | writingKs => exact Silent.traces keeps_sendAdditiveShare
  | pskBinder => exact Silent.traces keeps_doPskBinder
  | readingSks =>
      exact Silent.traces (keeps_bind (keeps_readKeyshare _) fun _ => keeps_advance)
  | finishingTph => exact Silent.traces silent_finishTph
  | writingHsRecv => exact Silent.traces keeps_writeHsRecv
  | ectfWait => exact steps_doEctf
  | ectfDone => exact Silent.traces (keeps_acknowledge _)
  | ksWait => exact steps_doKs
  | ksDone => exact Silent.traces (keeps_acknowledge _)
  | certWait => exact steps_doCertWait
  | certRecv => exact steps_writeCertRecv ready
  | deriveTs => exact steps_deriveTs
  | gcmShareDerive => exact steps_deriveGcmShares
  | gcmShareDone => exact Silent.traces (keeps_acknowledge _)
  | deriveRes => exact Silent.traces silent_deriveRes
  | resDone => exact Silent.traces (keeps_acknowledge _)
  | derivePsk => exact steps_derivePsk
  | pskDone => exact Silent.traces keeps_writeCompletedPsk
  | shutdown => exact steps_attestAndShutdown
  | done => exact Silent.traces keeps_abort

end Ready

section Drivers

theorem steps_runLoop {stopState : ServerState} {shouldPreproc : Bool} {fuel : ℕ}
    (ready : Ready s.state s.session) :
    Steps (runLoop env stopState shouldPreproc fuel) s := by
  induction fuel generalizing s with
  | zero => exact Silent.traces keeps_fail
  | succ fuel ih =>
      refine Traces.get_bind (Traces.ite (fun _ => Silent.traces (keeps_pure _)) fun _ => ?_)
      refine Traces.bind (steps_serve shouldPreproc ready) fun _ served ended => ih ?_
      rcases settles_serve shouldPreproc s.state s rfl _ _ ended with isNext | ⟨_, early⟩
      · rw [isNext]
        exact ready_serve shouldPreproc ready _ _ ended
      · exact ready_of_early early _

theorem steps_resetPerConnectionState : Steps resetPerConnectionState s :=
  Relation.ReflTransGen.single .connect

theorem steps_run {stopState : ServerState} {shouldPreproc alreadyAccepted : Bool}
    (early : alreadyAccepted = true → s.state.value ≤ ServerState.makingKs.value) :
    Steps (run env stopState shouldPreproc alreadyAccepted) s := by
  refine Traces.ite (fun _ => ?_) fun accepted => ?_
  · refine Traces.modify_bind Relation.ReflTransGen.refl ?_
    refine Traces.modify_bind steps_resetPerConnectionState ?_
    refine Traces.modify_bind Relation.ReflTransGen.refl ?_
    exact steps_runLoop trivial
  · refine Traces.modify_bind Relation.ReflTransGen.refl ?_
    exact steps_runLoop (ready_of_early (early (by simpa using accepted)) _)

/-- The states still to be served follow each other, and the first of them is prepared. -/
def Scheduled (later : List ServerState) (current : Server) : Prop :=
  later.IsChain (fun state following => following = state.next) ∧
    ∀ state, later.head? = some state → Ready state current.session

theorem steps_resumptionState (shouldPreproc : Bool) {state : ServerState}
    {later : List ServerState} (scheduled : Scheduled (state :: later) s) :
    Steps (do setState state; serve env shouldPreproc state) s ∧
      Ensures (do setState state; serve env shouldPreproc state)
        (fun _ => Scheduled later) s := by
  have ready : Ready state s.session := scheduled.2 state rfl
  constructor
  · exact Traces.modify_bind Relation.ReflTransGen.refl (steps_serve shouldPreproc ready)
  · refine Ensures.modify_bind ?_
    have prepared : Ready state { s with state }.session := ready
    refine (ready_serve shouldPreproc prepared).mono fun _ after nextReady => ?_
    refine ⟨scheduled.1.tail, fun following isHead => ?_⟩
    rcases later with _ | ⟨head, rest⟩
    · cases isHead
    · cases isHead
      rw [(List.isChain_cons_cons.mp scheduled.1).1]
      exact nextReady

/-- What is left of the prescribed list when a connection starts or continues. -/
theorem scheduled_start (stopState : ServerState) (alreadyAccepted : Bool) :
    Scheduled (prescribedStates stopState alreadyAccepted) s := by
  refine ⟨isChain_prescribedStates stopState alreadyAccepted, ?_⟩
  intro state isHead
  rcases head_prescribedStates isHead with rfl | rfl
  · exact trivial
  · exact trivial

theorem steps_runResumption {stopState : ServerState} {shouldPreproc alreadyAccepted : Bool} :
    Steps (runResumption env stopState shouldPreproc alreadyAccepted) s := by
  refine Traces.ite (fun _ => ?_) fun _ => ?_
  · refine Traces.modify_bind steps_resetPerConnectionState ?_
    refine Traces.modify_bind Relation.ReflTransGen.refl ?_
    exact Traces.forEach Scheduled (fun _ _ _ => steps_resumptionState shouldPreproc)
      (scheduled_start _ _)
  · refine Traces.modify_bind Relation.ReflTransGen.refl ?_
    exact Traces.forEach Scheduled (fun _ _ _ => steps_resumptionState shouldPreproc)
      (scheduled_start _ _)

theorem steps_acceptAndReadMode : Steps (acceptAndReadMode env) s := by
  refine Traces.modify_bind steps_resetPerConnectionState ?_
  refine Silent.traces (keeps_bind (keeps_setState _) fun _ => ?_)
  refine keeps_bind keeps_accept fun _ => keeps_bind keeps_doHandshake fun _ => ?_
  refine keeps_bind keeps_get fun _ => keeps_bind (keeps_require _) fun _ => ?_
  refine keeps_bind keeps_writeHandshakeDone fun _ => ?_
  refine keeps_bind keeps_readSingleHeader fun _ => keeps_bind (keeps_require _) fun _ => ?_
  exact keeps_pure _

theorem steps_serveConnection (shouldPreproc : Bool) :
    Steps (serveConnection env shouldPreproc) s := by
  refine Traces.bind steps_acceptAndReadMode fun kind opened ended => ?_
  have early := ensures_acceptAndReadMode _ _ ended
  cases kind with
  | full => exact steps_run fun _ => early
  | resumed => exact steps_runResumption

theorem steps_perform (call : Call) : Steps (perform env call) s := by
  cases call with
  | serveConnection shouldPreproc => exact steps_serveConnection shouldPreproc
  | run stopState shouldPreproc => exact steps_run nofun
  | runResumption stopState shouldPreproc => exact steps_runResumption
  | setPskShare share => exact Relation.ReflTransGen.single (.installPsk share)
  | setAttestation => exact Relation.ReflTransGen.refl

/-- Whatever is done with a `Server`, its session follows the abstract machine. -/
theorem steps_performAll (env : Environment) (calls : List Call) (server : Server) :
    Relation.ReflTransGen Step server.session (performAll env calls server).session := by
  induction calls generalizing server with
  | nil => exact Relation.ReflTransGen.refl
  | cons call later ih =>
      have first : Steps (perform env call) server := steps_perform call
      rw [Steps, Traces] at first
      rw [performAll]
      split
      · rename_i stopped ended
        rw [ended] at first
        exact first
      · rename_i outcome served _ ended
        rw [ended] at first
        exact first.trans (ih served)

/-- An invariant of the machine holds in every state that a fresh `Server` reaches. -/
theorem performAll_invariant {holds : Session → Prop} (env : Environment) (calls : List Call)
    {server : Server} (start : holds server.session)
    (preserved : ∀ t t', Step t t' → holds t → holds t') :
    holds (performAll env calls server).session := by
  exact invariant_along preserved (steps_performAll env calls server) start

end Drivers

section Concrete

/-- A key-share message of 32 bytes: the header, a group and a key of 27 bytes. -/
def keyShareMessage (header : MessageHeader) : Bytes :=
  header.toByte :: ([0, 23, 0, 27] ++ List.replicate 27 0)

/-- What a prover sends on a connection up to the attestation, and then the given messages. -/
def connectionMessages (mode : Mode) (resumed : Bool) (attestation : Bytes) : Bytes :=
  (if mode.isCapture then [] else MessageHeader.toByte .maskCommitments :: List.replicate 32 0) ++
    keyShareMessage .collect ++ keyShareMessage .serverKeyShare ++
    [MessageHeader.toByte (if resumed then .hsModeResumed else .hsModeFull),
      MessageHeader.toByte .doEctf] ++
    (if resumed then [] else MessageHeader.toByte .certificateCtxSend :: List.replicate 40 0) ++
    [MessageHeader.toByte .deriveTs, MessageHeader.toByte .gcmShareStart,
      MessageHeader.toByte .deriveRes, MessageHeader.toByte .pskSkip] ++ attestation

/-- A new `Server` of the given mode that serves one connection with these messages. -/
def servedOnce (mode : Mode) (resumed : Bool) (attestation : Bytes) : Server :=
  performAll (Environment.cooperative (connectionMessages mode resumed attestation) 32)
    [.setAttestation, .run .done true] (Server.initial mode)

/-- `GCM_VERIFY` for record 0 with a ciphertext of one byte. -/
def verifyMessage : Bytes :=
  MessageHeader.toByte .gcmVerify ::
    (List.replicate 8 0 ++ [0, 5] ++ List.replicate 5 0 ++ [0, 0, 0, 1] ++ List.replicate 17 0)

end Concrete

end PracticalCrypto.Surf.Server
