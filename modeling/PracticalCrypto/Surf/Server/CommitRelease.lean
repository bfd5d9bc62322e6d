import PracticalCrypto.Surf.Server.Runs

/-!
# Commit, attest, release, rotate

In the TRUE and ROTATE modes the prover commits to its key share, submits the
records of an epoch, and then receives the verifier's share of the server key.
Once it has that share it can forge any record, so nothing may be attested until
the server key has been rotated and the prover has committed again.
-/

namespace PracticalCrypto.Surf

open EventLog Session

/-- A new server key: a new connection or a completed server rotation. -/
def Event.startsEpoch : Event → Bool
  | .connection => true
  | .rotated .server => true
  | _ => false

/-- The events under the current server key. -/
def currentEpoch (log : List Event) : List Event := since Event.startsEpoch log

/-- The share of the server key has been written in the current epoch. -/
def WrittenInEpoch (log : List Event) : Prop := ∃ share, .keyWritten share ∈ currentEpoch log

/--
After a release on this connection, the server key was rotated and the prover has
committed since then.
-/
def RecommittedSinceRelease (log : List Event) : Prop :=
  ∀ share, .keyWritten share ∈ currentConnection log →
    ∃ newer older, log = newer ++ .rotated .server :: older ∧ .keyCommitted ∈ newer ∧
      ∀ other, .keyWritten other ∉ newer

/-- What must have happened before an event in a mode that releases the key. -/
def CommitDiscipline (older : List Event) : Event → Prop
  | .tagPassed _ _ =>
      .keyCommitted ∈ currentEpoch older ∧ ¬WrittenInEpoch older ∧ RecommittedSinceRelease older
  | .keyWritten _ => .keyCommitted ∈ currentEpoch older ∧ ¬WrittenInEpoch older
  | .rotateCircuit .server => WrittenInEpoch older
  | .rotated .server => WrittenInEpoch older
  | _ => True

theorem recommittedSinceRelease {log : List Event} (committed : .keyCommitted ∈ currentEpoch log)
    (unwritten : ¬WrittenInEpoch log) : RecommittedSinceRelease log := by
  intro share released
  have absent : .keyWritten share ∉ since Event.startsEpoch log :=
    fun inEpoch => unwritten ⟨share, inEpoch⟩
  rcases exists_delimiter_of_not_mem released absent with
    ⟨separator, older, split, starts, notConnection⟩
  have isRotation : separator = .rotated .server := by
    cases separator with
    | connection => cases notConnection
    | rotated direction =>
        cases direction with
        | client => cases starts
        | server => rfl
    | _ => cases starts
  refine ⟨currentEpoch log, older, ?_, committed, fun other inEpoch => unwritten ⟨other, inEpoch⟩⟩
  rw [← isRotation]
  exact split

namespace Session

/-- The flags of the session say what the log of the current epoch says. -/
structure EpochInvariant (s : Session) : Prop where
  capture : s.mode.isCapture = true
  committed : s.keyCommitted = true → .keyCommitted ∈ currentEpoch s.log
  released : s.keyReleased = true ↔ WrittenInEpoch s.log
  verified : ∀ seq ∈ s.verifiedSeqs, ∃ ciphertext, .tagPassed seq ciphertext ∈ currentEpoch s.log
  attested : ∀ entry ∈ s.attestedCt, .tagPassed entry.1 entry.2 ∈ currentConnection s.log
  disciplined : Justified CommitDiscipline s.log

variable {s t : Session}

/-- Two sessions with the same flags and records. -/
structure SameRecords (s t : Session) : Prop where
  mode : t.mode = s.mode
  committed : t.keyCommitted = s.keyCommitted
  released : t.keyReleased = s.keyReleased
  verified : t.verifiedSeqs = s.verifiedSeqs
  attested : t.attestedCt = s.attestedCt

namespace EpochInvariant

theorem keep (inv : EpochInvariant s) (same : SameRecords s t) (log : t.log = s.log) :
    EpochInvariant t := by
  rcases inv with ⟨capture, committed, released, verified, attested, disciplined⟩
  refine ⟨?_, ?_, ?_, ?_, ?_, ?_⟩
  · rw [same.mode]
    exact capture
  · rw [same.committed, log]
    exact committed
  · rw [same.released, log]
    exact released
  · rw [same.verified, log]
    exact verified
  · rw [same.attested, log]
    exact attested
  · rw [log]
    exact disciplined

theorem push {event : Event} (inv : EpochInvariant s) (same : SameRecords s t)
    (log : t.log = event :: s.log) (inEpoch : event.startsEpoch = false)
    (notWritten : ∀ share, event ≠ .keyWritten share) (allowed : CommitDiscipline s.log event) :
    EpochInvariant t := by
  have epoch : currentEpoch t.log = event :: currentEpoch s.log := by
    rw [log]
    exact since_cons_other inEpoch
  have sameConnection : event.isConnection = false := by
    cases event with
    | connection => cases inEpoch
    | _ => rfl
  have connection : currentConnection t.log = event :: currentConnection s.log := by
    rw [log]
    exact currentConnection_cons _ sameConnection
  refine ⟨?_, ?_, ?_, ?_, ?_, ?_⟩
  · rw [same.mode]
    exact inv.capture
  · rw [same.committed, epoch]
    exact fun isCommitted => List.mem_cons_of_mem _ (inv.committed isCommitted)
  · rw [same.released, inv.released, WrittenInEpoch, WrittenInEpoch, epoch]
    constructor
    · rintro ⟨share, written⟩
      exact ⟨share, List.mem_cons_of_mem _ written⟩
    · rintro ⟨share, written⟩
      rcases List.mem_cons.mp written with isEvent | written
      · exact absurd isEvent.symm (notWritten share)
      · exact ⟨share, written⟩
  · rw [same.verified, epoch]
    intro seq member
    rcases inv.verified seq member with ⟨ciphertext, passed⟩
    exact ⟨ciphertext, List.mem_cons_of_mem _ passed⟩
  · rw [same.attested, connection]
    exact fun entry member => List.mem_cons_of_mem _ (inv.attested entry member)
  · rw [log]
    exact inv.disciplined.cons allowed

theorem note {event : Event} (inv : EpochInvariant s) (plain : event.isPlain = true) :
    EpochInvariant { s with log := event :: s.log } := by
  have same : SameRecords s { s with log := event :: s.log } := ⟨rfl, rfl, rfl, rfl, rfl⟩
  cases event with
  | message header => exact inv.push same rfl rfl (fun _ => nofun) trivial
  | aesEncBatch seq ctr => exact inv.push same rfl rfl (fun _ => nofun) trivial
  | keystreamRequest records => exact inv.push same rfl rfl (fun _ => nofun) trivial
  | verifyRequest seq => exact inv.push same rfl rfl (fun _ => nofun) trivial
  | _ => cases plain

theorem attest (inv : EpochInvariant s) (seq : UInt64) (ciphertext : Bytes)
    (held : s.keyCommitted = true ∧ s.keyReleased = false) :
    EpochInvariant (Server.attestRecord seq ciphertext s) := by
  have committed := inv.committed held.1
  have unwritten : ¬WrittenInEpoch s.log := by
    rw [← inv.released, held.2]
    exact Bool.false_ne_true
  have allowed : CommitDiscipline s.log (.tagPassed seq ciphertext) :=
    ⟨committed, unwritten, recommittedSinceRelease committed unwritten⟩
  have pushed : EpochInvariant { s with log := .tagPassed seq ciphertext :: s.log } :=
    inv.push ⟨rfl, rfl, rfl, rfl, rfl⟩ rfl rfl (fun _ => nofun) allowed
  refine ⟨inv.capture, pushed.committed, pushed.released, ?_, ?_, pushed.disciplined⟩
  · intro other member
    rcases List.mem_append.mp member with earlier | added
    · exact pushed.verified other earlier
    · cases List.mem_singleton.mp added
      exact ⟨ciphertext, List.mem_cons_self⟩
  · intro entry member
    change entry ∈ (if _ then _ else _) at member
    split at member
    · rcases List.mem_append.mp member with earlier | added
      · exact pushed.attested entry earlier
      · cases List.mem_singleton.mp added
        exact List.mem_cons_self
    · exact pushed.attested entry member

theorem commit (inv : EpochInvariant s) (keyCommitment : Bytes) :
    EpochInvariant
      { s with keyCommitment, keyCommitted := true, log := .keyCommitted :: s.log } := by
  have pushed : EpochInvariant { s with log := .keyCommitted :: s.log } :=
    inv.push ⟨rfl, rfl, rfl, rfl, rfl⟩ rfl rfl (fun _ => nofun) trivial
  exact ⟨inv.capture, fun _ => List.mem_cons_self, pushed.released, pushed.verified,
    pushed.attested, pushed.disciplined⟩

theorem release (inv : EpochInvariant s)
    (held : s.keyCommitted = true ∧ s.keyReleased = false) :
    EpochInvariant
      { s with keyReleased := true, log := .keyWritten s.serverKeyShare :: s.log } := by
  have unwritten : ¬WrittenInEpoch s.log := by
    rw [← inv.released, held.2]
    exact Bool.false_ne_true
  refine ⟨inv.capture, ?_, ?_, ?_, ?_, inv.disciplined.cons ⟨inv.committed held.1, unwritten⟩⟩
  · exact fun isCommitted => List.mem_cons_of_mem _ (inv.committed isCommitted)
  · exact ⟨fun _ => ⟨_, List.mem_cons_self⟩, fun _ => rfl⟩
  · intro seq member
    rcases inv.verified seq member with ⟨ciphertext, passed⟩
    exact ⟨ciphertext, List.mem_cons_of_mem _ passed⟩
  · exact fun entry member => List.mem_cons_of_mem _ (inv.attested entry member)

theorem rotate (inv : EpochInvariant s) (out : RotateCircuitOut) (direction : Direction)
    (released : direction = .server → s.keyReleased = true) :
    EpochInvariant (Server.installRotated out direction s) := by
  cases direction with
  | client => exact inv.push ⟨rfl, rfl, rfl, rfl, rfl⟩ rfl rfl (fun _ => nofun) trivial
  | server =>
      have written : WrittenInEpoch s.log := inv.released.mp (released rfl)
      exact inv.push ⟨rfl, rfl, rfl, rfl, rfl⟩ rfl rfl (fun _ => nofun) written

theorem restart (inv : EpochInvariant s) (powers : Bytes) (direction : Direction)
    (released : direction = .server → s.keyReleased = true) :
    EpochInvariant (Server.restartSequence powers direction s) := by
  cases direction with
  | client => exact inv.push ⟨rfl, rfl, rfl, rfl, rfl⟩ rfl rfl (fun _ => nofun) trivial
  | server =>
      have written : WrittenInEpoch s.log := inv.released.mp (released rfl)
      refine ⟨inv.capture, nofun, ?_, nofun, ?_, inv.disciplined.cons written⟩
      · refine ⟨nofun, ?_⟩
        rintro ⟨_, inEmpty⟩
        cases inEmpty
      · exact fun entry member => List.mem_cons_of_mem _ (inv.attested entry member)

theorem connect (inv : EpochInvariant s) : EpochInvariant (Server.clearConnection s) := by
  refine ⟨inv.capture, nofun, ?_, nofun, nofun, inv.disciplined.cons trivial⟩
  refine ⟨nofun, ?_⟩
  rintro ⟨_, inEmpty⟩
  cases inEmpty

theorem operation (inv : EpochInvariant s) (operation : Operation s t) : EpochInvariant t := by
  cases operation with
  | note event plain => exact inv.note plain
  | encrypting => exact inv.keep ⟨rfl, rfl, rfl, rfl, rfl⟩ rfl
  | encrypted => exact inv.push ⟨rfl, rfl, rfl, rfl, rfl⟩ rfl rfl (fun _ => nofun) trivial
  | readAad => exact inv.keep ⟨rfl, rfl, rfl, rfl, rfl⟩ rfl
  | tagCircuit => exact inv.push ⟨rfl, rfl, rfl, rfl, rfl⟩ rfl rfl (fun _ => nofun) trivial
  | attest seq ciphertext held => exact inv.attest seq ciphertext (held inv.capture)
  | keystream => exact inv.push ⟨rfl, rfl, rfl, rfl, rfl⟩ rfl rfl (fun _ => nofun) trivial
  | commit keyCommitment _ => exact inv.commit keyCommitment
  | release held => exact inv.release held
  | rotate out direction released => exact inv.rotate out direction released
  | restart powers direction released => exact inv.restart powers direction released

theorem step (inv : EpochInvariant s) (step : Step s t) : EpochInvariant t := by
  cases step with
  | operation operation => exact inv.operation operation
  | connect => exact inv.connect
  | rekey => exact inv.keep ⟨rfl, rfl, rfl, rfl, rfl⟩ rfl
  | _ => exact inv.push ⟨rfl, rfl, rfl, rfl, rfl⟩ rfl rfl (fun _ => nofun) trivial

end EpochInvariant

end Session

namespace Server

theorem Fresh.epochInvariant {server : Server} (fresh : Fresh server)
    (capture : server.session.mode.isCapture = true) : EpochInvariant server.session := by
  refine ⟨capture, ?_, ?_, ?_, ?_, ?_⟩
  · rw [fresh.keyCommitted_eq]
    exact nofun
  · rw [fresh.keyReleased_eq, fresh.log_eq]
    exact ⟨nofun, fun ⟨_, inEmpty⟩ => nomatch inEmpty⟩
  · rw [fresh.verifiedSeqs_eq]
    exact nofun
  · rw [fresh.attestedCt_eq]
    exact nofun
  · rw [fresh.log_eq]
    exact .nil

/--
The commit-then-release discipline: in the TRUE and ROTATE modes, whatever is done
with a `Server` and whatever the provers send, every event of its log came in
order, and every record it holds as attested has passed its tag check under the
server key that the log says.
-/
theorem performAll_disciplined (env : Environment) (calls : List Call) {server : Server}
    (fresh : Fresh server) (capture : server.session.mode.isCapture = true) :
    Justified CommitDiscipline (performAll env calls server).session.log ∧
      (∀ seq ∈ (performAll env calls server).session.verifiedSeqs, ∃ ciphertext,
        .tagPassed seq ciphertext ∈
          currentEpoch (performAll env calls server).session.log) ∧
      ∀ entry ∈ (performAll env calls server).session.attestedCt,
        .tagPassed entry.1 entry.2 ∈
          currentConnection (performAll env calls server).session.log := by
  have inv := performAll_invariant env calls (fresh.epochInvariant capture)
    fun _ _ step kept => EpochInvariant.step kept step
  exact ⟨inv.disciplined, inv.verified, inv.attested⟩

/-- A prover that commits, has one record verified and asks for the key share. -/
def releaseMessages : Bytes :=
  MessageHeader.toByte .keyCommit :: List.replicate 32 0 ++ verifyMessage ++
    [MessageHeader.toByte .keyRelease, MessageHeader.toByte .stop]

theorem servedOnce_disciplined :
    (servedOnce .trueSurf false releaseMessages).session.verifiedSeqs = [0] ∧
      (servedOnce .trueSurf false releaseMessages).session.keyReleased = true ∧
      Justified CommitDiscipline (servedOnce .trueSurf false releaseMessages).session.log := by
  refine ⟨by decide +kernel, by decide +kernel, ?_⟩
  rw [servedOnce]
  exact (performAll_disciplined _ _ (fresh_initial .trueSurf) rfl).1

end Server

end PracticalCrypto.Surf
