import PracticalCrypto.Surf.Server.Runs

/-!
# The ciphertexts that are retained for a disclosure

In the TRUE and ROTATE modes `verify_gcm_tag` keeps the ciphertext of every accepted record
with its sequence number, and only a new connection discards them. A server rotation starts
the sequence numbers again from zero and forgets which ones were verified, but it neither
discards what was retained nor notes the epoch. So a sequence number names one retained
ciphertext as long as it arrives in one `GCM_VERIFY` message of the connection, whatever the
epochs of the connection are.
-/

namespace PracticalCrypto.Surf

open EventLog Session

/-- The sequence number of a `GCM_VERIFY` message. -/
def Event.submitted : Event → Option UInt64
  | .verifyRequest seq => some seq
  | _ => none

/-- The sequence numbers that have arrived in `GCM_VERIFY` messages of this connection, in any of its
epochs, newest first. -/
def submittedSeqs (log : List Event) : List UInt64 :=
  (currentConnection log).filterMap Event.submitted

/-- The record that `verify_gcm_tag` accepts. -/
def Event.accepted : Event → Option (UInt64 × Bytes)
  | .tagPassed seq ciphertext => some (seq, ciphertext)
  | _ => none

/-- The records that were accepted on this connection under any of its keys, newest first. -/
def acceptedRecords (log : List Event) : List (UInt64 × Bytes) :=
  (currentConnection log).filterMap Event.accepted

theorem acceptedRecords_cons_accepted {event : Event} {entry : UInt64 × Bytes} (log : List Event)
    (accepted : event.accepted = some entry) :
    acceptedRecords (event :: log) = entry :: acceptedRecords log := by
  have sameConnection : event.isConnection = false := by
    cases event with
    | connection => cases accepted
    | _ => rfl
  rw [acceptedRecords, currentConnection_cons log sameConnection,
    List.filterMap_cons_some accepted, acceptedRecords]

theorem acceptedRecords_cons_other {event : Event} (log : List Event)
    (sameConnection : event.isConnection = false) (other : event.accepted = none) :
    acceptedRecords (event :: log) = acceptedRecords log := by
  rw [acceptedRecords, currentConnection_cons log sameConnection,
    List.filterMap_cons_none other, acceptedRecords]

/-- A record is accepted in answer to the message that submits it. -/
def Asked (older : List Event) : Event → Prop
  | .tagPassed seq _ => older.head? = some (.verifyRequest seq)
  | _ => True

/-- A `GCM_VERIFY` message has at most one record accepted, and as the last thing before it none. -/
theorem accepted_sublist_submitted {log : List Event} (asked : Justified Asked log) :
    ((acceptedRecords log).map Prod.fst).Sublist (submittedSeqs log) ∧
      ∀ seq, log.head? = some (.verifyRequest seq) →
        ((acceptedRecords log).map Prod.fst).Sublist (submittedSeqs log).tail := by
  induction asked with
  | nil => exact ⟨List.Sublist.refl _, nofun⟩
  | @cons older event earlier allowed ih =>
      cases event with
      | connection => exact ⟨List.nil_sublist _, nofun⟩
      | verifyRequest seq =>
          have requested : submittedSeqs (.verifyRequest seq :: older) =
              seq :: submittedSeqs older := rfl
          have sameAccepted : acceptedRecords (.verifyRequest seq :: older) =
              acceptedRecords older := acceptedRecords_cons_other older rfl rfl
          rw [requested, sameAccepted]
          exact ⟨ih.1.cons _, fun _ _ => ih.1⟩
      | tagPassed seq ciphertext =>
          have waiting := ih.2 seq allowed
          rcases List.head?_eq_some_iff.mp allowed with ⟨rest, rfl⟩
          exact ⟨waiting.cons_cons seq, nofun⟩
      | _ =>
          rw [acceptedRecords_cons_other older rfl rfl]
          exact ⟨ih.1, nofun⟩

namespace Session

variable {s t : Session} {retain : Bool}

/-- What is retained in a mode that captures: every accepted record, or none. -/
structure RetainedInvariant (retain : Bool) (s : Session) : Prop where
  capture : s.mode.isCapture = true
  flag : s.retainCt = retain
  retained : s.attestedCt = if retain then (acceptedRecords s.log).reverse else []
  asked : Justified Asked s.log

/-- Two sessions with the same settings and the same retained ciphertexts. -/
structure SameRetained (s t : Session) : Prop where
  mode : t.mode = s.mode
  flag : t.retainCt = s.retainCt
  retained : t.attestedCt = s.attestedCt

namespace RetainedInvariant

theorem keep (inv : RetainedInvariant retain s) (same : SameRetained s t)
    (log : t.log = s.log) : RetainedInvariant retain t := by
  rcases inv with ⟨capture, flag, retained, asked⟩
  refine ⟨same.mode ▸ capture, same.flag.trans flag, ?_, ?_⟩
  · rw [same.retained, log]
    exact retained
  · rw [log]
    exact asked

theorem push {event : Event} (inv : RetainedInvariant retain s) (same : SameRetained s t)
    (log : t.log = event :: s.log) (sameConnection : event.isConnection = false)
    (other : event.accepted = none) (permitted : Asked s.log event) :
    RetainedInvariant retain t := by
  rcases inv with ⟨capture, flag, retained, asked⟩
  refine ⟨same.mode ▸ capture, same.flag.trans flag, ?_, ?_⟩
  · rw [same.retained, log, acceptedRecords_cons_other _ sameConnection other]
    exact retained
  · rw [log]
    exact asked.cons permitted

theorem note {event : Event} (inv : RetainedInvariant retain s) (plain : event.isPlain = true) :
    RetainedInvariant retain { s with log := event :: s.log } := by
  cases event with
  | message header => exact inv.push ⟨rfl, rfl, rfl⟩ rfl rfl rfl trivial
  | aesEncBatch seq ctr => exact inv.push ⟨rfl, rfl, rfl⟩ rfl rfl rfl trivial
  | keystreamRequest records => exact inv.push ⟨rfl, rfl, rfl⟩ rfl rfl rfl trivial
  | verifyRequest seq => exact inv.push ⟨rfl, rfl, rfl⟩ rfl rfl rfl trivial
  | _ => cases plain

theorem attest (inv : RetainedInvariant retain s) (seq : UInt64) (ciphertext : Bytes)
    (permitted : s.log.head? = some (.verifyRequest seq)) :
    RetainedInvariant retain (Server.attestRecord seq ciphertext s) := by
  rcases inv with ⟨capture, flag, retained, asked⟩
  refine ⟨capture, flag, ?_, asked.cons permitted⟩
  have accepted : acceptedRecords (Server.attestRecord seq ciphertext s).log =
      (seq, ciphertext) :: acceptedRecords s.log := acceptedRecords_cons_accepted _ rfl
  rw [accepted, Server.attestRecord]
  cases retain with
  | false => simpa [capture, flag] using retained
  | true =>
      simp only [if_true] at retained
      simp [capture, flag, retained]

theorem connect (inv : RetainedInvariant retain s) :
    RetainedInvariant retain (Server.clearConnection s) := by
  refine ⟨inv.capture, inv.flag, ?_, inv.asked.cons trivial⟩
  cases retain <;> rfl

theorem operation (inv : RetainedInvariant retain s) (operation : Operation s t) :
    RetainedInvariant retain t := by
  cases operation with
  | note event plain => exact inv.note plain
  | encrypting => exact inv.keep ⟨rfl, rfl, rfl⟩ rfl
  | readAad => exact inv.keep ⟨rfl, rfl, rfl⟩ rfl
  | attest seq ciphertext _ asked => exact inv.attest seq ciphertext asked
  | rotate out direction _ =>
      cases direction <;> exact inv.push ⟨rfl, rfl, rfl⟩ rfl rfl rfl trivial
  -- the records of the old epoch stay when the sequence numbers restart
  | restart powers direction _ =>
      cases direction <;> exact inv.push ⟨rfl, rfl, rfl⟩ rfl rfl rfl trivial
  | _ => exact inv.push ⟨rfl, rfl, rfl⟩ rfl rfl rfl trivial

theorem step (inv : RetainedInvariant retain s) (step : Step s t) : RetainedInvariant retain t := by
  cases step with
  | operation operation => exact inv.operation operation
  | connect => exact inv.connect
  | rekey => exact inv.keep ⟨rfl, rfl, rfl⟩ rfl
  | _ => exact inv.push ⟨rfl, rfl, rfl⟩ rfl rfl rfl trivial

end RetainedInvariant

end Session

namespace Server

theorem Fresh.retainedInvariant {server : Server} (fresh : Fresh server)
    (capture : server.session.mode.isCapture = true) :
    RetainedInvariant server.session.retainCt server.session := by
  refine ⟨capture, rfl, ?_, ?_⟩
  · rw [fresh.attestedCt_eq, fresh.log_eq]
    cases server.session.retainCt <;> rfl
  · rw [fresh.log_eq]
    exact .nil

/--
The retained ciphertexts have different sequence numbers if nothing is retained or no sequence
number arrives in two `GCM_VERIFY` messages of the connection, be it in one epoch or in two.
-/
theorem performAll_retainedDistinct (env : Environment) (calls : List Call) {server : Server}
    (fresh : Fresh server) (capture : server.session.mode.isCapture = true)
    (once : server.session.retainCt = true →
      (submittedSeqs (performAll env calls server).session.log).Nodup) :
    ((performAll env calls server).session.attestedCt.map Prod.fst).Nodup := by
  have inv : RetainedInvariant server.session.retainCt (performAll env calls server).session :=
    performAll_invariant env calls (fresh.retainedInvariant capture)
      fun _ _ step inv => RetainedInvariant.step inv step
  rw [inv.retained]
  cases retains : server.session.retainCt with
  | false => simp
  | true =>
      rw [if_pos rfl, List.map_reverse, List.nodup_reverse]
      exact (once retains).sublist (accepted_sublist_submitted inv.asked).1

/-- The prover commits, submits the records with these numbers and asks for the key. -/
def captureMessages (seqs : List UInt8) : Bytes :=
  MessageHeader.toByte .keyCommit :: List.replicate 32 0 ++
    seqs.flatMap (fun seq =>
      MessageHeader.toByte .gcmVerify ::
        (List.replicate 7 0 ++ [seq, 0, 5] ++ List.replicate 5 0 ++ [0, 0, 0, 1] ++
          List.replicate 17 0)) ++
    [MessageHeader.toByte .keyRelease]

theorem servedOnce_captureMessages :
    (servedOnce .rotate false (captureMessages [0, 1, 5] ++
        [MessageHeader.toByte .stop])).session.attestedCt.map Prod.fst = [0, 1, 5] ∧
      ((servedOnce .rotate false (captureMessages [0, 1, 5] ++
        [MessageHeader.toByte .stop])).session.attestedCt.map Prod.fst).Nodup := by
  have once : (submittedSeqs (servedOnce .rotate false (captureMessages [0, 1, 5] ++
      [MessageHeader.toByte .stop])).session.log).Nodup := by decide +kernel
  refine ⟨by decide +kernel, ?_⟩
  rw [servedOnce] at once ⊢
  exact performAll_retainedDistinct _ _ (fresh_initial .rotate) rfl fun _ => once

/-- Record 0 of one epoch, a server rotation, and record 0 of the next epoch. -/
def rotatedCapture : Bytes :=
  captureMessages [0] ++ [MessageHeader.toByte .rotateKey, 1] ++ captureMessages [0] ++
    [MessageHeader.toByte .stop]

theorem servedOnce_rotatedCapture :
    (servedOnce .rotate false rotatedCapture).session.attestedCt.map Prod.fst = [0, 0] ∧
      (servedOnce .rotate false rotatedCapture).session.epoch = 1 ∧
      ¬((servedOnce .rotate false rotatedCapture).session.attestedCt.map Prod.fst).Nodup := by
  decide +kernel

end Server

end PracticalCrypto.Surf
