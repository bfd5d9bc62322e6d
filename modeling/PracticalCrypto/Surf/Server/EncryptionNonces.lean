import PracticalCrypto.Surf.Server.TagNonces

/-!
# Joint encryption under fresh nonces

`encrypt_blocks` looks for its sequence number among those that were used under the
current client key when it starts, but notes it only when its last batch is through. In
between it may fail, and a second run could then repeat counters that the first one has
used. It cannot come to that: nothing is read on a connection after a failed run, and the
next connection has other keys.

The first half is an invariant of the abstract machine. The second half depends on the
order in which the code logs its events and is followed through the drivers.
-/

namespace PracticalCrypto.Surf

open EventLog Handler Session

namespace Event

/-- The sequence number of a completed run of `encrypt_blocks`. -/
def encryptedSeq : Event → Option UInt64
  | .encrypted seq => some seq
  | _ => none

/-- The operator installs a PSK share, between connections. -/
def isInstallation : Event → Bool
  | .pskInstalled _ => true
  | _ => false

end Event

/-- A run completes for a sequence number for which none has completed under this key. -/
def EncryptedOnce (older : List Event) (event : Event) : Prop :=
  ∀ seq ∈ event.encryptedSeq, ∀ earlier ∈ clientEpoch older, earlier.encryptedSeq ≠ some seq

/-- The last message asks for encryption and its run has not completed. -/
def openRun : List Event → Bool
  | .message .aesEnc :: _ => true
  | .aesEncBatch _ _ :: _ => true
  | .pskInstalled _ :: older => openRun older
  | _ => false

/-- The event is the next one of the run to which the newest event belongs. -/
def ContinuesRun : List Event → Event → Prop
  | .message .aesEnc :: _, .aesEncBatch _ _ => True
  | .aesEncBatch seq _ :: _, .aesEncBatch next _ => next = seq
  | .aesEncBatch seq _ :: _, .encrypted next => next = seq
  | _, _ => False

/-- What follows an unfinished run, if it is not part of it, is a new connection. -/
def UnfinishedEnds (older : List Event) (event : Event) : Prop :=
  openRun older = true →
    ContinuesRun older event ∨ event.isConnection = true ∨ event.isInstallation = true

instance decidableEncryptedOnce (older : List Event) (event : Event) :
    Decidable (EncryptedOnce older event) :=
  Option.decidableForallMem event.encryptedSeq

section Fresh

namespace Session

/-- The runs that have completed under the current client key are noted, each of them once. -/
structure EncryptionInvariant (s : Session) : Prop where
  noted : ∀ event ∈ clientEpoch s.log, ∀ seq ∈ event.encryptedSeq, seq ∈ s.encryptedSeqs
  once : Justified EncryptedOnce s.log

variable {s t : Session}

namespace EncryptionInvariant

theorem keep (inv : EncryptionInvariant s) (same : t.encryptedSeqs = s.encryptedSeqs)
    (log : t.log = s.log) : EncryptionInvariant t := by
  constructor
  · rw [log, same]
    exact inv.noted
  · rw [log]
    exact inv.once

theorem push {event : Event} (inv : EncryptionInvariant s)
    (same : t.encryptedSeqs = s.encryptedSeqs) (log : t.log = event :: s.log)
    (inEpoch : event.startsClientEpoch = false) (notCompleted : event.encryptedSeq = none) :
    EncryptionInvariant t := by
  constructor
  · rw [log, same, clientEpoch_cons _ inEpoch]
    intro other member seq completed
    rcases List.mem_cons.mp member with rfl | earlier
    · rw [notCompleted] at completed
      cases completed
    · exact inv.noted other earlier seq completed
  · rw [log]
    refine inv.once.cons ?_
    intro seq completed
    rw [notCompleted] at completed
    cases completed

theorem note {event : Event} (inv : EncryptionInvariant s) (plain : event.isPlain = true) :
    EncryptionInvariant { s with log := event :: s.log } := by
  cases event with
  | message header => exact inv.push rfl rfl rfl rfl
  | aesEncBatch seq ctr => exact inv.push rfl rfl rfl rfl
  | keystreamRequest records => exact inv.push rfl rfl rfl rfl
  | verifyRequest seq => exact inv.push rfl rfl rfl rfl
  | _ => cases plain

theorem encrypt (inv : EncryptionInvariant s) (seq : UInt64) (encryptCtLen : ℕ)
    (unused : seq ∉ s.encryptedSeqs) :
    EncryptionInvariant
      { s with
        encryptCtLen
        encryptedSeqs := s.encryptedSeqs ++ [seq]
        log := .encrypted seq :: s.log } := by
  constructor
  · intro event member completed isCompleted
    rcases List.mem_cons.mp member with rfl | earlier
    · cases isCompleted
      exact List.mem_append_right _ List.mem_cons_self
    · exact List.mem_append_left _ (inv.noted event earlier completed isCompleted)
  · refine inv.once.cons ?_
    intro completed isCompleted earlier member again
    cases isCompleted
    exact unused (inv.noted earlier member seq again)

theorem restart {event : Event} (inv : EncryptionInvariant s) (log : t.log = event :: s.log)
    (starts : event.startsClientEpoch = true) (notCompleted : event.encryptedSeq = none) :
    EncryptionInvariant t := by
  constructor
  · have empty : clientEpoch t.log = [] := by
      rw [log]
      exact since_cons_delimiter starts
    rw [empty]
    exact nofun
  · rw [log]
    refine inv.once.cons ?_
    rw [EncryptedOnce, notCompleted]
    exact nofun

theorem operation (inv : EncryptionInvariant s) (operation : Operation s t) :
    EncryptionInvariant t := by
  cases operation with
  | note event plain => exact inv.note plain
  | encrypting => exact inv.keep rfl rfl
  | readAad => exact inv.keep rfl rfl
  | encrypted seq encryptCtLen unused => exact inv.encrypt seq encryptCtLen unused
  | rotate out direction _ => cases direction <;> exact inv.push rfl rfl rfl rfl
  | restart powers direction _ =>
      cases direction with
      | client => exact inv.restart rfl rfl rfl
      | server => exact inv.push rfl rfl rfl rfl
  | _ => exact inv.push rfl rfl rfl rfl

theorem step (inv : EncryptionInvariant s) (step : Step s t) : EncryptionInvariant t := by
  cases step with
  | operation operation => exact inv.operation operation
  | connect => exact inv.restart rfl rfl rfl
  | rekey => exact inv.keep rfl rfl
  | _ => exact inv.push rfl rfl rfl rfl

end EncryptionInvariant

end Session

end Fresh

namespace Server

variable {env : Environment} {s : Server}

section Logged

def OutsideRun (event : Event) : Prop := event.ofEncryption = false

/-- Nothing is logged that belongs to a run of `encrypt_blocks`. -/
def LogsOthers (before after : Server) : Prop :=
  Logs OutsideRun before.session.log after.session.log

instance logBlindLogsOthers : LogBlind OutsideRun LogsOthers where
  refl _ := ⟨[], rfl, nofun⟩
  trans := by
    rintro _ _ _ ⟨early, first, others⟩ ⟨late, second, more⟩
    refine ⟨late ++ early, ?_, ?_⟩
    · rw [second, first, List.append_assoc]
    · intro event member
      rcases List.mem_append.mp member with isLate | isEarly
      · exact more event isLate
      · exact others event isEarly
  io _ _ _ _ _ _ _ _ := ⟨[], rfl, nofun⟩
  session _ _ logs := logs

theorem keeps_of_silent {α : Type} {prog : Handler Server α} (silent : Silent session prog) :
    Keeps LogsOthers prog := by
  intro s
  have same : (prog s).2.session = s.session := silent s
  refine ⟨[], ?_, nofun⟩
  rw [same]
  rfl

theorem logsOthers_advance : Keeps LogsOthers advance := keeps_of_silent keeps_advance

theorem logsOthers_modifySession {change : Session → Session} {event : Event}
    (log : ∀ session, (change session).log = event :: session.log)
    (other : OutsideRun event) : Keeps LogsOthers (modifySession change) := by
  have logs : ∀ session, Logs OutsideRun session.log (change session).log := by
    intro session
    rw [log]
    exact Logs.one session.log other
  exact keeps_logSession logs

theorem logsOthers_readMaskCommitments : Keeps LogsOthers readMaskCommitments := by
  refine keeps_bind keeps_get fun _ => keeps_ite logsOthers_advance ?_
  refine keeps_bind keeps_readSingleHeader fun _ => keeps_bind (keeps_require _) fun _ => ?_
  refine keeps_bind (keeps_readExact _) fun _ => keeps_bind ?_ fun _ => logsOthers_advance
  exact keeps_unlogged OutsideRun fun _ => rfl

theorem logsOthers_doEctf : Keeps LogsOthers (doEctf env) := by
  refine keeps_bind keeps_readSingleHeader fun _ => keeps_bind (keeps_require _) fun _ => ?_
  refine keeps_bind (logsOthers_modifySession (fun _ => rfl) rfl) fun _ => ?_
  refine keeps_bind keeps_readSingleHeader fun _ => keeps_bind (keeps_require _) fun _ => ?_
  refine keeps_bind keeps_libraryRequest fun _ => keeps_bind (keeps_ofOption _) fun _ => ?_
  exact keeps_of_silent (keeps_bind (keeps_modify fun _ => rfl) fun _ => keeps_advance)

theorem logsOthers_doKs : Keeps LogsOthers (doKs env) := by
  refine keeps_bind keeps_get fun _ => keeps_bind (keeps_dereference _) fun _ => ?_
  refine keeps_bind (logsOthers_modifySession (fun _ => rfl) rfl) fun _ => ?_
  refine keeps_bind keeps_tick fun _ => keeps_bind (keeps_ofOption _) fun _ => ?_
  exact keeps_of_silent (keeps_bind (keeps_modify fun _ => rfl) fun _ => keeps_advance)

theorem logsOthers_doCertWait : Keeps LogsOthers (doCertWait env) := by
  refine keeps_bind keeps_get fun _ => keeps_ite logsOthers_advance ?_
  refine keeps_bind keeps_readSingleHeader fun _ => keeps_bind (keeps_require _) fun _ => ?_
  refine keeps_bind keeps_readU64 fun _ => keeps_bind (keeps_reserveTranscript _) fun _ => ?_
  refine keeps_bind keeps_get fun _ => keeps_bind (keeps_readTranscript _) fun _ => ?_
  refine keeps_bind keeps_get fun _ => keeps_bind (keeps_require _) fun _ => ?_
  refine keeps_bind ?_ fun _ => logsOthers_advance
  exact keeps_modify fun server => ⟨[.certificate _ _], rfl, List.forall_mem_singleton.mpr rfl⟩

theorem logsOthers_writeCertRecv : Keeps LogsOthers (writeCertRecv env) := by
  refine keeps_bind keeps_get fun _ => ?_
  refine keeps_bind (logsOthers_modifySession (fun _ => rfl) rfl) fun _ => ?_
  exact keeps_bind (keeps_write _) fun _ => logsOthers_advance

theorem logsOthers_deriveTs : Keeps LogsOthers (deriveTs env) := by
  refine keeps_bind keeps_readSingleHeader fun _ => keeps_bind (keeps_require _) fun _ => ?_
  refine keeps_bind (keeps_dereference _) fun _ => keeps_bind keeps_get fun _ => ?_
  refine keeps_bind keeps_tick fun _ => keeps_bind (keeps_ofOption _) fun _ => ?_
  exact keeps_bind (keeps_unlogged OutsideRun fun _ => rfl) fun _ => logsOthers_advance

theorem logsOthers_deriveGcmShares : Keeps LogsOthers (deriveGcmShares env) := by
  refine keeps_bind keeps_readSingleHeader fun _ => keeps_bind (keeps_require _) fun _ => ?_
  refine keeps_bind (keeps_dereference _) fun _ => keeps_bind keeps_get fun _ => ?_
  refine keeps_bind (keeps_makeGcmShareFor _) fun _ => ?_
  refine keeps_bind (keeps_makeGcmShareFor _) fun _ => ?_
  exact keeps_bind (keeps_unlogged OutsideRun fun _ => rfl) fun _ => logsOthers_advance

end Logged

section Finishes

/-- No run of `encrypt_blocks` is open, and none was left open before. -/
structure Settled (log : List Event) : Prop where
  ended : Justified UnfinishedEnds log
  closed : openRun log = false

theorem Settled.cons {log : List Event} {event : Event} (settled : Settled log)
    (other : OutsideRun event) : Settled (event :: log) := by
  constructor
  · refine settled.ended.cons fun isOpen => ?_
    rw [settled.closed] at isOpen
    cases isOpen
  · cases event with
    | message header =>
        cases header with
        | aesEnc => cases other
        | _ => rfl
    | aesEncBatch seq ctr => cases other
    | pskInstalled share => exact settled.closed
    | _ => rfl

theorem Settled.logs {older log : List Event} (settled : Settled older)
    (logs : Logs OutsideRun older log) : Settled log := by
  rcases logs with ⟨newer, rfl, others⟩
  induction newer with
  | nil => exact settled
  | cons event newer ih =>
      rcases List.forall_mem_cons.mp others with ⟨other, rest⟩
      exact (ih rest).cons other

theorem settled_connection {log : List Event} (ended : Justified UnfinishedEnds log) :
    Settled (.connection :: log) :=
  ⟨ended.cons fun _ => .inr (.inl rfl), rfl⟩

variable {α β : Type}

/-- Every run that the log opens is closed, or is the last thing in it. -/
def Ended (s : Server) : Prop := Justified UnfinishedEnds s.session.log

/-- No run is left open, unless the handler ends with it. -/
abbrev Finishes (prog : Handler Server α) (s : Server) : Prop :=
  Leaves Ended prog (fun _ after => Settled after.session.log) s

theorem finishes_of_logsOthers {prog : Handler Server α} (keeps : Keeps LogsOthers prog)
    (settled : Settled s.session.log) : Finishes prog s :=
  ⟨(settled.logs (keeps s)).ended, fun _ _ ended => settled.logs (keeps.of_eq ended)⟩

theorem Ended.silent_bind {prog : Handler Server α} {next : α → Handler Server β}
    {post : β → Server → Prop} (ended : Ended s)
    (silent : Silent (fun server : Server => server.session.log) prog)
    (rest : ∀ value after, after.session.log = s.session.log →
      Leaves Ended (next value) post after) : Leaves Ended (prog >>= next) post s := by
  refine Leaves.silent_bind silent (fun after same => ?_) rest
  rw [Ended, same]
  exact ended

end Finishes

section Encryption

/-- The log while a run for the sequence number is under way, before this list of batches. -/
structure Encrypting (seq : UInt64) (batches : List ℕ) (s : Server) : Prop where
  ended : Ended s
  newest : (∃ ctr older, s.session.log = .aesEncBatch seq ctr :: older) ∨
    batches ≠ [] ∧ ∃ older, s.session.log = .message .aesEnc :: older

theorem Encrypting.next {seq : UInt64} {batches : List ℕ} (encrypting : Encrypting seq batches s)
    (ctr : Fin 16 → Block) :
    Justified UnfinishedEnds (.aesEncBatch seq ctr :: s.session.log) := by
  refine encrypting.ended.cons fun _ => .inl ?_
  rcases encrypting.newest with ⟨_, _, log⟩ | ⟨_, _, log⟩
  · rw [log]
    rfl
  · rw [log]
    trivial

theorem Encrypting.complete {seq : UInt64} (encrypting : Encrypting seq [] s) :
    Settled (.encrypted seq :: s.session.log) := by
  refine ⟨encrypting.ended.cons fun _ => .inl ?_, rfl⟩
  rcases encrypting.newest with ⟨_, _, log⟩ | ⟨notEmpty, _⟩
  · rw [log]
    rfl
  · exact absurd rfl notEmpty

theorem leaves_encryptBatch {seq : UInt64} {nblocks batch : ℕ} {later : List ℕ}
    (encrypting : Encrypting seq (batch :: later) s) :
    Leaves Ended (encryptBatch env seq nblocks batch) (fun _ => Encrypting seq later) s := by
  let input := encryptInput s.session seq nblocks batch
  let recorded : Server := { s with session := { s.session with
    log := .aesEncBatch seq input.ctr :: s.session.log } }
  have ended : Ended recorded := encrypting.next input.ctr
  refine Leaves.get_bind (Leaves.modify_bind (s := s) ?_)
  refine ended.silent_bind keeps_tick fun now ticked sameTicked => ?_
  have endedTicked : Ended ticked := by rwa [Ended, sameTicked]
  refine endedTicked.silent_bind (keeps_ofOption _) fun out computed sameComputed => ?_
  have endedComputed : Ended computed := by rwa [Ended, sameComputed]
  refine Leaves.require_bind (fun _ => endedComputed) fun _ => Leaves.modify endedComputed ?_
  exact ⟨endedComputed, .inl ⟨input.ctr, s.session.log, sameComputed.trans sameTicked⟩⟩

theorem leaves_encryptBatches {seq : UInt64} {nblocks : ℕ} {batches : List ℕ}
    (encrypting : Encrypting seq batches s) :
    Leaves Ended (Handler.forEach (encryptBatch env seq nblocks) batches)
      (fun _ => Encrypting seq []) s := by
  refine Leaves.forEach (fun batch later t here => ?_) (fun _ done => done.ended) encrypting
  exact leaves_encryptBatch here

theorem batches_ne_nil {length : ℕ} (notZero : length ≠ 0) :
    List.range (batchesOf (BlockMap.blocksOf length)) ≠ [] := by
  rw [Ne, List.range_eq_nil, batchesOf, BlockMap.blocksOf]
  omega

/-- A run that was asked for completes, or it stays the last thing in the log. -/
theorem finishes_encryptBlocks (ended : Ended s)
    (asked : ∃ older, s.session.log = .message .aesEnc :: older) :
    Finishes (encryptBlocks env) s := by
  refine ended.silent_bind (keeps_requireCircuit _) fun _ built sameBuilt => ?_
  have endedBuilt : Ended built := by rwa [Ended, sameBuilt]
  refine endedBuilt.silent_bind keeps_readU64 fun seq named sameNamed => ?_
  have endedNamed : Ended named := by rwa [Ended, sameNamed]
  refine Leaves.get_bind (Leaves.require_bind (fun _ => endedNamed) fun _ => ?_)
  refine endedNamed.silent_bind keeps_readU32 fun ptLen measured sameMeasured => ?_
  have endedMeasured : Ended measured := by rwa [Ended, sameMeasured]
  refine Leaves.require_bind (fun _ => endedMeasured) fun admissible => Leaves.modify_bind ?_
  have notZero : ptLen.toNat ≠ 0 := fun zero => admissible.1 (UInt32.toNat_inj.mp zero)
  rw [← sameBuilt, ← sameNamed, ← sameMeasured] at asked
  have encrypting : Encrypting seq (List.range (batchesOf (BlockMap.blocksOf ptLen.toNat)))
      { measured with session := { measured.session with
        encryptedCt := List.replicate (batchesOf (BlockMap.blocksOf ptLen.toNat) * 16)
          fun _ => 0 } } :=
    ⟨endedMeasured, .inr ⟨batches_ne_nil notZero, asked⟩⟩
  refine (leaves_encryptBatches encrypting).bind fun _ _ _ finished => ?_
  exact Leaves.modify finished.complete.ended finished.complete

end Encryption

section Drivers

/-- A message that asks for encryption opens a run, every other one leaves the log settled. -/
theorem finishes_dispatched {header : MessageHeader} {handler : Handler Server Unit}
    (found : dispatch env header = some handler) (ended : Ended s)
    (asked : ∃ older, s.session.log = .message header :: older)
    (settled : header ≠ .aesEnc → Settled s.session.log) : Finishes handler s := by
  by_cases encrypts : header = .aesEnc
  · subst encrypts
    cases found
    exact finishes_encryptBlocks ended asked
  · have logs : ∀ event : Event, event.ofEncryption = false → OutsideRun event :=
      fun _ other => other
    refine finishes_of_logsOthers ?_ (settled encrypts)
    exact keeps_dispatch logs found fun isEnc => absurd isEnc encrypts

theorem Settled.message {log : List Event} (settled : Settled log) (header : MessageHeader) :
    Justified UnfinishedEnds (.message header :: log) := by
  refine settled.ended.cons fun isOpen => ?_
  rw [settled.closed] at isOpen
  cases isOpen

theorem outsideRun_message {header : MessageHeader} (other : header ≠ .aesEnc) :
    OutsideRun (.message header) := by
  cases header with
  | aesEnc => exact absurd rfl other
  | _ => rfl

/-- The header that is not dispatched is none that opens a run. -/
theorem finishes_readHeaderDrainingEncryption (fuel : ℕ) (settled : Settled s.session.log) :
    Finishes (readHeaderDrainingEncryption env fuel) s := by
  induction fuel generalizing s with
  | zero => exact finishes_of_logsOthers keeps_fail settled
  | succ fuel ih =>
      have ended : Ended s := settled.ended
      refine ended.silent_bind keeps_readSingleHeader fun header read same => ?_
      rw [← same] at settled
      refine Leaves.modify_bind ?_
      cases found : dispatch env header with
      | none =>
          have other : header ≠ .aesEnc := by
            rintro rfl
            cases found
          have recorded := settled.cons (outsideRun_message other)
          exact Leaves.pure recorded.ended recorded
      | some handler =>
          have first := finishes_dispatched (s := { read with session := { read.session with
              log := .message header :: read.session.log } }) found (settled.message header)
            ⟨_, rfl⟩ fun other => settled.cons (outsideRun_message other)
          exact first.bind fun _ _ _ => ih

theorem finishes_attest (fuel : ℕ) (settled : Settled s.session.log) :
    Finishes (attest env fuel) s := by
  rw [attest_eq_drain]
  refine (finishes_readHeaderDrainingEncryption fuel settled).bind fun _ _ _ drained => ?_
  exact finishes_of_logsOthers (keeps_require _) drained

theorem finishes_derivePsk (settled : Settled s.session.log) : Finishes (derivePsk env) s := by
  refine Leaves.modify_bind (Leaves.get_bind ?_)
  have drain : Finishes (readHeaderDrainingEncryption env (s.inbox.length + 1))
      { s with pskSkipped := false } := finishes_readHeaderDrainingEncryption _ settled
  refine drain.bind fun _ _ _ drained => ?_
  refine finishes_of_logsOthers (keeps_ite ?_ ?_) drained
  · exact keeps_of_silent (keeps_bind (keeps_modify fun _ => rfl) fun _ => keeps_advance)
  · refine keeps_bind (keeps_ofOption _) fun _ => keeps_bind (keeps_requireCircuit _) fun _ => ?_
    refine keeps_bind keeps_get fun _ => keeps_bind keeps_tick fun _ => ?_
    refine keeps_bind (keeps_ofOption _) fun _ => keeps_bind ?_ fun _ => logsOthers_advance
    exact logsOthers_modifySession (fun _ => rfl) rfl

theorem finishes_attestAndShutdown (settled : Settled s.session.log) :
    Finishes (attestAndShutdown env) s := by
  refine Leaves.get_bind (Leaves.ite (fun _ => ?_) fun _ => ?_)
  · refine (finishes_attest _ settled).bind fun _ _ _ attested => ?_
    exact finishes_of_logsOthers (keeps_of_silent (keeps_setState _)) attested
  · exact finishes_of_logsOthers (keeps_of_silent (keeps_setState _)) settled

theorem finishes_serve (shouldPreproc : Bool) (state : ServerState)
    (settled : Settled s.session.log) : Finishes (serve env shouldPreproc state) s := by
  have silent {prog : Handler Server Unit} (quiet : Silent session prog) : Finishes prog s :=
    finishes_of_logsOthers (keeps_of_silent quiet) settled
  cases state with
  | accept => exact silent keeps_accept
  | handshake => exact silent keeps_doHandshake
  | handshakeDone => exact silent keeps_writeHandshakeDone
  | circuitPreproc => exact silent (keeps_doPreproc shouldPreproc)
  | maskCommit => exact finishes_of_logsOthers logsOthers_readMaskCommitments settled
  | readingKs => exact silent (keeps_bind (keeps_readKeyshare _) fun _ => keeps_setState _)
  | makingKs => exact silent silent_createNewShare
  | writingKs => exact silent keeps_sendAdditiveShare
  | pskBinder => exact silent keeps_doPskBinder
  | readingSks => exact silent (keeps_bind (keeps_readKeyshare _) fun _ => keeps_advance)
  | finishingTph => exact silent silent_finishTph
  | writingHsRecv => exact silent keeps_writeHsRecv
  | ectfWait => exact finishes_of_logsOthers logsOthers_doEctf settled
  | ectfDone | ksDone | gcmShareDone | resDone => exact silent (keeps_acknowledge _)
  | ksWait => exact finishes_of_logsOthers logsOthers_doKs settled
  | certWait => exact finishes_of_logsOthers logsOthers_doCertWait settled
  | certRecv => exact finishes_of_logsOthers logsOthers_writeCertRecv settled
  | deriveTs => exact finishes_of_logsOthers logsOthers_deriveTs settled
  | gcmShareDerive => exact finishes_of_logsOthers logsOthers_deriveGcmShares settled
  | deriveRes => exact silent silent_deriveRes
  | derivePsk => exact finishes_derivePsk settled
  | pskDone => exact silent keeps_writeCompletedPsk
  | shutdown => exact finishes_attestAndShutdown settled
  | done => exact silent keeps_abort

theorem finishes_runLoop (stopState : ServerState) (shouldPreproc : Bool) (fuel : ℕ)
    (settled : Settled s.session.log) :
    Finishes (runLoop env stopState shouldPreproc fuel) s := by
  induction fuel generalizing s with
  | zero => exact finishes_of_logsOthers keeps_fail settled
  | succ fuel ih =>
      refine Leaves.get_bind (Leaves.ite (fun _ => ?_) fun _ => ?_)
      · exact Leaves.pure settled.ended settled
      · exact (finishes_serve shouldPreproc _ settled).bind fun _ _ _ => ih

theorem finishes_run (stopState : ServerState) (shouldPreproc alreadyAccepted : Bool)
    (ended : Ended s) (settled : alreadyAccepted = true → Settled s.session.log) :
    Finishes (run env stopState shouldPreproc alreadyAccepted) s := by
  cases alreadyAccepted with
  | false =>
      refine Leaves.modify_bind (Leaves.modify_bind (Leaves.modify_bind ?_))
      exact finishes_runLoop _ _ _ (settled_connection ended)
  | true => exact Leaves.modify_bind (finishes_runLoop _ _ _ (settled rfl))

theorem finishes_serveStates (shouldPreproc : Bool) (states : List ServerState)
    (settled : Settled s.session.log) :
    Finishes (Handler.forEach (fun state => do
      setState state
      serve env shouldPreproc state) states) s := by
  induction states generalizing s with
  | nil => exact Leaves.pure settled.ended settled
  | cons state later ih =>
      have first : Finishes (setState state >>= fun _ => serve env shouldPreproc state) s :=
        Leaves.modify_bind (finishes_serve shouldPreproc state settled)
      exact first.bind fun _ _ _ => ih

theorem finishes_runResumption (stopState : ServerState) (shouldPreproc alreadyAccepted : Bool)
    (ended : Ended s) (settled : alreadyAccepted = true → Settled s.session.log) :
    Finishes (runResumption env stopState shouldPreproc alreadyAccepted) s := by
  cases alreadyAccepted with
  | false =>
      refine Leaves.modify_bind (Leaves.modify_bind ?_)
      exact finishes_serveStates _ _ (settled_connection ended)
  | true => exact Leaves.modify_bind (finishes_serveStates _ _ (settled rfl))

theorem finishes_acceptAndReadMode (ended : Ended s) : Finishes (acceptAndReadMode env) s := by
  refine Leaves.modify_bind (finishes_of_logsOthers (keeps_of_silent ?_) (settled_connection ended))
  refine keeps_bind (keeps_setState _) fun _ => keeps_bind keeps_accept fun _ => ?_
  refine keeps_bind keeps_doHandshake fun _ => keeps_bind keeps_get fun _ => ?_
  refine keeps_bind (keeps_require _) fun _ => keeps_bind keeps_writeHandshakeDone fun _ => ?_
  refine keeps_bind keeps_readSingleHeader fun _ => keeps_bind (keeps_require _) fun _ => ?_
  exact keeps_pure _

theorem finishes_serveConnection (shouldPreproc : Bool) (ended : Ended s) :
    Finishes (serveConnection env shouldPreproc) s := by
  refine (finishes_acceptAndReadMode ended).bind fun kind _ _ accepted => ?_
  cases kind with
  | full => exact finishes_run _ _ _ accepted.ended fun _ => accepted
  | resumed => exact finishes_runResumption _ _ _ accepted.ended fun _ => accepted

end Drivers

section Calls

/-- The calls that serve a connection. -/
def Call.connects : Call → Bool
  | .serveConnection _ => true
  | .run _ _ => true
  | .runResumption _ _ => true
  | _ => false

theorem finishes_perform {call : Call} (connects : call.connects = true) (ended : Ended s) :
    Finishes (perform env call) s := by
  cases call with
  | serveConnection shouldPreproc => exact finishes_serveConnection shouldPreproc ended
  | run stopState shouldPreproc => exact finishes_run _ _ false ended nofun
  | runResumption stopState shouldPreproc => exact finishes_runResumption _ _ false ended nofun
  | setPskShare | setAttestation => cases connects

theorem ended_perform (call : Call) (ended : Ended s) : Ended (perform env call s).2 := by
  cases call with
  | serveConnection | run | runResumption => exact (finishes_perform rfl ended).ended
  | setPskShare share => exact ended.cons fun _ => .inr (.inr rfl)
  | setAttestation => exact ended

theorem ended_performAll (calls : List Call) (ended : Ended s) :
    Ended (performAll env calls s) := by
  induction calls generalizing s with
  | nil => exact ended
  | cons call later ih =>
      have performed : Ended (perform env call s).2 := ended_perform call ended
      rw [performAll]
      rcases outcome : perform env call s with ⟨_ | _ | _, after⟩
      all_goals rw [outcome] at performed
      · exact ih performed
      · exact ih performed
      · exact performed

theorem Fresh.encryptionInvariant (fresh : Fresh s) : EncryptionInvariant s.session := by
  constructor
  · rw [fresh.log_eq]
    exact nofun
  · rw [fresh.log_eq]
    exact .nil

theorem Fresh.ended (fresh : Fresh s) : Ended s := by
  rw [Ended, fresh.log_eq]
  exact .nil

/--
Under one client key at most one run of `encrypt_blocks` completes for a sequence number. A run
that does not complete is the last thing that the log of its connection holds, and the call that
serves the connection does not return normally.
-/
theorem performAll_encryptedOnce (env : Environment) (calls : List Call) {server : Server}
    (fresh : Fresh server) :
    Justified EncryptedOnce (performAll env calls server).session.log ∧
      Justified UnfinishedEnds (performAll env calls server).session.log ∧
      ∀ call : Call, call.connects = true →
        Ensures (perform env call) (fun _ after => openRun after.session.log = false)
          (performAll env calls server) := by
  have ended : Ended (performAll env calls server) := ended_performAll calls fresh.ended
  refine ⟨?_, ended, fun call connects => ?_⟩
  · exact (performAll_invariant env calls fresh.encryptionInvariant
      fun _ _ step inv => EncryptionInvariant.step inv step).once
  · exact (finishes_perform connects ended).ensures.mono fun _ _ settled => settled.closed

/-- A record, a second one and a third message that repeats the first sequence number. -/
def repeatedRecord : Bytes :=
  encryptMessage 0 ++ encryptMessage 1 ++ encryptMessage 0 ++ [MessageHeader.toByte .stop]

theorem servedOnce_encryptedOnce :
    (servedOnce .masked false repeatedRecord).session.log.filterMap Event.encryptedSeq = [1, 0] ∧
      openRun (servedOnce .masked false repeatedRecord).session.log = true ∧
      Justified EncryptedOnce (servedOnce .masked false repeatedRecord).session.log := by
  refine ⟨by decide +kernel, by decide +kernel, ?_⟩
  rw [servedOnce]
  exact (performAll_encryptedOnce _ _ (fresh_initial .masked)).1

end Calls

end Server

end PracticalCrypto.Surf
