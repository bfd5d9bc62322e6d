import PracticalCrypto.Surf.Server.Machine
import PracticalCrypto.Surf.Server.Progress

/-!
# The verifier takes the steps of the abstract machine

Every handler of the verifier moves its session by steps of `Session.Step`,
whether it returns, fails or aborts. Most handlers do not touch the session at
all; the others are followed check by check up to the guard of their step.
-/

namespace PracticalCrypto.Surf.Server

open BlockMap EventLog Handler Session

variable {env : Environment} {s : Server}

section Operations

/-- From `s` the handler takes steps of encryption and attestation. -/
abbrev Operates {α : Type} (prog : Handler Server α) (s : Server) : Prop :=
  Traces session Operation prog s

theorem operates_record {event : Event} (plain : event.isPlain = true) :
    Operates (record event) s :=
  Relation.ReflTransGen.single (.note event plain)

theorem operates_encryptBatch (seq : UInt64) (nblocks batch : ℕ) :
    Operates (encryptBatch env seq nblocks batch) s := by
  refine Traces.get_bind (Traces.bind (operates_record rfl) fun _ _ _ => ?_)
  refine Traces.silent_bind keeps_tick fun _ _ _ => ?_
  refine Traces.ofOption_bind fun out _ => ?_
  refine Traces.require_bind fun _ => ?_
  exact Relation.ReflTransGen.single (.encrypting _)

instance : IoBlind (Same fun s : Server => s.session.encryptedSeqs) where
  io _ _ _ _ _ _ _ _ := rfl

theorem silent_encryptBatch_seqs (seq : UInt64) (nblocks batch : ℕ) :
    Silent (fun s => s.session.encryptedSeqs) (encryptBatch env seq nblocks batch) := by
  refine keeps_bind keeps_get fun _ => keeps_bind (keeps_modify fun _ => rfl) fun _ => ?_
  refine keeps_bind keeps_tick fun _ => ?_
  refine keeps_bind (keeps_ofOption _) fun _ => keeps_bind (keeps_require _) fun _ => ?_
  exact keeps_modify fun _ => rfl

theorem operates_encryptBlocks : Operates (encryptBlocks env) s := by
  refine Traces.silent_bind (keeps_requireCircuit _) fun _ _ _ => ?_
  refine Traces.silent_bind keeps_readU64 fun seq checked _ => ?_
  refine Traces.get_bind (Traces.require_bind fun fresh => ?_)
  refine Traces.silent_bind keeps_readU32 fun ptLen measured sameSession => ?_
  refine Traces.require_bind fun _ => ?_
  refine Traces.modify_bind (Relation.ReflTransGen.single (.encrypting _)) ?_
  refine Traces.bind ?_ fun _ s' ended => ?_
  · exact Traces.forEach (fun _ _ => True) (fun batch _ _ _ =>
      ⟨operates_encryptBatch _ _ batch, fun _ _ _ => trivial⟩) trivial
  · have sameSeqs := Silent.of_returned (keeps_forEach (silent_encryptBatch_seqs seq _) _) ended
    change s'.session.encryptedSeqs = measured.session.encryptedSeqs at sameSeqs
    refine Relation.ReflTransGen.single (.encrypted seq ptLen.toNat ?_)
    rw [sameSeqs, sameSession]
    exact fresh

theorem operates_makeGcmTag (asked : s.session.log.head? = some (.message .gcmTag)) :
    Operates (makeGcmTag env) s := by
  refine Traces.silent_bind (keeps_requireCircuit _) fun _ _ sameCircuit => ?_
  refine Traces.silent_bind keeps_readU16 fun aadLen _ sameLength => ?_
  refine Traces.require_bind fun _ => ?_
  refine Traces.silent_bind (keeps_readExact _) fun aad read sameAad => ?_
  refine Traces.modify_bind (Relation.ReflTransGen.single (.readAad _)) ?_
  refine Traces.silent_bind keeps_readU32 fun ctLen measured sameSession => ?_
  have head : measured.session.log.head? = some (.message .gcmTag) := by
    rw [sameSession]
    change read.session.log.head? = _
    rw [sameAad, sameLength, sameCircuit]
    exact asked
  refine Traces.get_bind (Traces.require_bind fun _ => ?_)
  split
  · exact Silent.traces keeps_abort
  · rename_i seq last
    refine Traces.ofOption_bind fun tagShare _ => ?_
    refine Traces.bind (Relation.ReflTransGen.single (.tagCircuit seq _ _ last head))
      fun _ _ _ => ?_
    refine Traces.silent_bind keeps_tick fun _ _ _ => ?_
    exact Traces.ofOption_bind fun _ _ => Silent.traces (keeps_require _)

theorem operates_verifyGcmTag : Operates (verifyGcmTag env) s := by
  refine Traces.get_bind (Traces.require_bind fun held => ?_)
  refine Traces.silent_bind keeps_readU64 fun seq _ sameSeq => ?_
  refine Traces.silent_bind keeps_readU16 fun aadLen _ sameLength => ?_
  refine Traces.require_bind fun _ => ?_
  refine Traces.silent_bind (keeps_readExact _) fun aad _ sameAad => ?_
  refine Traces.silent_bind keeps_readU32 fun ctLen _ sameCtLen => ?_
  refine Traces.require_bind fun _ => ?_
  refine Traces.silent_bind (keeps_readExact _) fun ciphertext _ sameCt => ?_
  refine Traces.silent_bind (keeps_readExact _) fun serverTag read sameTag => ?_
  have sameRead : read.session = s.session := by
    rw [sameTag, sameCt, sameCtLen, sameAad, sameLength, sameSeq]
  refine Traces.ofOption_bind fun tagShare _ => ?_
  refine Traces.modify_bind (Relation.ReflTransGen.single (.note (.verifyRequest seq) rfl)) ?_
  refine Traces.silent_bind (keeps_requireCircuit _) fun _ _ sameCircuit => ?_
  refine Traces.silent_bind keeps_tick fun now verified sameNow => ?_
  have sameSession : verified.session =
      { s.session with log := .verifyRequest seq :: s.session.log } := by
    rw [sameNow, sameCircuit, ← sameRead]
  refine Traces.ofOption_bind fun out _ => Traces.require_bind fun _ => ?_
  refine Traces.ite (fun _ => ?_) fun _ => ?_
  · exact Traces.ite (fun _ => Silent.traces (keeps_write _)) fun _ => Silent.traces keeps_fail
  · refine Traces.bind (Relation.ReflTransGen.single (.attest seq ciphertext ?_ ?_)) fun _ _ _ => ?_
    · rw [sameSession]
      exact held
    · rw [sameSession]
      rfl
    · exact Traces.ite (fun _ => Silent.traces (keeps_write _))
        fun _ => Silent.traces (keeps_pure _)

theorem operates_readKeyCommitment : Operates readKeyCommitment s := by
  refine Traces.get_bind (Traces.require_bind fun first => ?_)
  refine Traces.silent_bind (keeps_readExact _) fun commitment read sameSession => ?_
  refine Relation.ReflTransGen.single (.commit commitment ?_)
  rw [sameSession]
  exact first.2

theorem operates_releaseKey : Operates (releaseKey env) s := by
  refine Traces.get_bind (Traces.require_bind fun held => ?_)
  refine Traces.modify_bind (Relation.ReflTransGen.single (.release held.2)) ?_
  exact Silent.traces (keeps_write _)

theorem operates_rotateKeyOp : Operates (rotateKeyOp env) s := by
  refine Traces.get_bind (Traces.require_bind fun _ => ?_)
  refine Traces.silent_bind (keeps_requireCircuit _) fun _ _ sameRotate => ?_
  refine Traces.silent_bind (keeps_requireCircuit _) fun _ _ sameGcm => ?_
  refine Traces.silent_bind (keeps_readExact _) fun _ _ sameRead => ?_
  refine Traces.ofOption_bind fun direction _ => Traces.require_bind fun released => ?_
  refine Traces.silent_bind keeps_tick fun _ asked sameAsked => ?_
  have sameSession : asked.session = s.session := by
    rw [sameAsked, sameRead, sameGcm, sameRotate]
  have stillReleased : direction = .server → asked.session.keyReleased = true := by
    rw [sameSession]
    exact released
  refine Traces.ofOption_bind fun out _ => ?_
  refine Traces.modify_bind (Relation.ReflTransGen.single (.rotate out direction stillReleased)) ?_
  refine Traces.silent_bind (keeps_makeGcmShareFor _) fun powers restarted sameRotated => ?_
  refine Relation.ReflTransGen.single (.restart powers direction ?_)
  intro server
  subst server
  rw [sameRotated]
  exact stillReleased rfl

theorem mem_of_mapM_eq_some {α β : Type} {items : List α} {found : List β} {f : α → Option β}
    (mapped : items.mapM f = some found) {value : β} (member : value ∈ found) :
    ∃ item ∈ items, f item = some value := by
  induction items generalizing found with
  | nil =>
      cases mapped
      cases member
  | cons item later ih =>
      rw [List.mapM_cons] at mapped
      rcases Option.bind_eq_some_iff.mp mapped with ⟨head, headEq, rest⟩
      rcases Option.bind_eq_some_iff.mp rest with ⟨tail, tailEq, whole⟩
      cases whole
      rcases List.mem_cons.mp member with rfl | inTail
      · exact ⟨item, List.mem_cons_self, headEq⟩
      · rcases ih tailEq inTail with ⟨source, sourceMem, sourceEq⟩
        exact ⟨source, List.mem_cons_of_mem _ sourceMem, sourceEq⟩

/-- A slot that is not padding is a block of one of the requested records. -/
theorem keystreamSlot_covered {records : List RecordDims} {idx : ℕ} {slot : Slot}
    (resolved : keystreamSlot records (totalBlocks records) idx = some slot)
    (real : slot.padding = false) :
    ∃ entry ∈ records, ∃ position < blocksOf entry.ctLen.toNat,
      slot.seq = entry.seq ∧ slot.counter = UInt32.ofNat position + 2 := by
  rw [keystreamSlot] at resolved
  split at resolved
  · rename_i inside
    rcases resolve_of_lt inside with ⟨entry, member, position, within, found⟩
    rw [found] at resolved
    cases resolved
    exact ⟨entry, member, position, within, rfl, rfl⟩
  · rcases Option.map_eq_some_iff.mp resolved with ⟨found, _, rfl⟩
    cases real

/-- The request is being served, and each of its entries has a verified tag. -/
def RequestChecked (records : List RecordDims) (session : Session) : Prop :=
  Requested records session.log ∧ ∀ entry ∈ records, entry.seq ∈ session.verifiedSeqs

theorem operates_keystreamBatch {records : List RecordDims} (batch : ℕ)
    (checked : RequestChecked records s.session) :
    Operates (keystreamBatch env records (totalBlocks records) batch) s ∧
      Ensures (keystreamBatch env records (totalBlocks records) batch)
        (fun _ after => RequestChecked records after.session) s := by
  constructor
  · refine Traces.silent_bind keeps_libraryRequest fun _ _ sameTick =>
      Traces.require_bind fun _ => ?_
    refine Traces.ofOption_bind fun slots mapped => Traces.get_bind ?_
    refine Traces.bind (Relation.ReflTransGen.single
      (.keystream records slots (by rw [sameTick]; exact checked.1)
        (by rw [sameTick]; exact checked.2) ?_)) fun _ _ _ => ?_
    · intro slot member real
      rcases mem_of_mapM_eq_some mapped member with ⟨j, _, resolved⟩
      exact keystreamSlot_covered resolved real
    · exact Traces.silent_bind keeps_tick fun _ _ _ => Silent.traces (keeps_require _)
  · refine Ensures.silent_bind session keeps_libraryRequest fun _ _ sameTick =>
      Ensures.require_bind fun _ => ?_
    refine Ensures.ofOption_bind fun slots _ => Ensures.get_bind (Ensures.modify_bind ?_)
    refine Ensures.silent_bind session keeps_tick fun _ _ sameBatch => Ensures.require fun _ => ?_
    rw [sameBatch]
    rw [← sameTick] at checked
    rcases checked with ⟨⟨batches, older, split, onlyBatches⟩, verified⟩
    refine ⟨⟨.keystreamBatch slots :: batches, older, ?_, ?_⟩, verified⟩
    · rw [List.cons_append, ← split]
    · intro event member
      rcases List.mem_cons.mp member with rfl | earlier
      · exact ⟨slots, rfl⟩
      · exact onlyBatches event earlier

theorem operates_deriveKeystreamBlocks : Operates (deriveKeystreamBlocks env) s := by
  refine Traces.silent_bind (keeps_requireCircuit _) fun _ _ _ => ?_
  refine Traces.silent_bind keeps_readU32 fun nrec _ _ => Traces.require_bind fun _ => ?_
  refine Traces.silent_bind (keeps_collect (fun _ => keeps_readRecordDims) _) fun records _ _ => ?_
  refine Traces.modify_bind (operates_record rfl) ?_
  refine Traces.get_bind (Traces.require_bind fun verified => ?_)
  refine Traces.forEach (fun _ current => RequestChecked records current.session)
    (fun batch _ _ checked => operates_keystreamBatch batch checked) ⟨?_, verified⟩
  exact ⟨[], _, rfl, nofun⟩

/-- The handlers of both dispatching loops; a tag is only made for a header that asked for one. -/
theorem operates_dispatch {header : MessageHeader} {handler : Handler Server Unit}
    (found : dispatch env header = some handler)
    (asked : s.session.log.head? = some (.message header)) : Operates handler s := by
  cases header with
  | aesEnc =>
      cases found
      exact operates_encryptBlocks
  | gcmTag =>
      cases found
      exact operates_makeGcmTag asked
  | gcmVerify =>
      cases found
      exact operates_verifyGcmTag
  | ksDerive =>
      cases found
      exact operates_deriveKeystreamBlocks
  | keyCommit =>
      cases found
      exact operates_readKeyCommitment
  | keyRelease =>
      cases found
      exact operates_releaseKey
  | rotateKey =>
      cases found
      exact operates_rotateKeyOp
  | _ => cases found

theorem operates_readHeaderDrainingEncryption (fuel : ℕ) :
    Operates (readHeaderDrainingEncryption env fuel) s := by
  induction fuel generalizing s with
  | zero => exact Silent.traces keeps_fail
  | succ fuel ih =>
      refine Traces.silent_bind keeps_readSingleHeader fun header _ _ => ?_
      refine Traces.modify_bind (operates_record rfl) ?_
      split
      · rename_i handler found
        exact Traces.bind (operates_dispatch found rfl) fun _ _ _ => ih
      · exact Silent.traces (keeps_pure _)

theorem operates_attest (fuel : ℕ) : Operates (attest env fuel) s := by
  rw [attest_eq_drain]
  apply Traces.bind (operates_readHeaderDrainingEncryption fuel)
  intro _ _ _
  exact Silent.traces (keeps_require _)

end Operations

section SilentHandlers

theorem silent_createNewShare : Silent session (createNewShare env) := by
  refine keeps_bind keeps_get fun _ => keeps_bind (keeps_ofOption _) fun _ => ?_
  refine keeps_bind keeps_tick fun _ => keeps_bind (keeps_modify fun _ => rfl) fun _ => ?_
  refine keeps_bind (keeps_require _) fun _ => keeps_ite keeps_advance ?_
  refine keeps_bind (keeps_ofOption _) fun _ => keeps_bind keeps_tick fun _ => ?_
  refine keeps_bind (keeps_modify fun _ => rfl) fun _ => ?_
  exact keeps_bind (keeps_require _) fun _ => keeps_advance

theorem silent_finishTph : Silent session (finishTph env) := by
  refine keeps_bind keeps_get fun _ => keeps_bind (keeps_ofOption _) fun _ => ?_
  refine keeps_bind (keeps_require _) fun _ => keeps_bind (keeps_ofOption _) fun _ => ?_
  refine keeps_bind (keeps_modify fun _ => rfl) fun _ => keeps_bind keeps_tick fun _ => ?_
  exact keeps_bind (keeps_require _) fun _ => keeps_setState _

theorem silent_deriveRes : Silent session (deriveRes env) := by
  refine keeps_bind keeps_readSingleHeader fun _ => keeps_bind (keeps_require _) fun _ => ?_
  refine keeps_bind (keeps_dereference _) fun _ => keeps_bind keeps_get fun _ => ?_
  refine keeps_bind keeps_tick fun _ => keeps_bind (keeps_ofOption _) fun _ => ?_
  exact keeps_bind (keeps_modify fun _ => rfl) fun _ => keeps_advance

end SilentHandlers

section Steps

/-- From `s` the handler takes steps of the abstract machine. -/
abbrev Steps {α : Type} (prog : Handler Server α) (s : Server) : Prop :=
  Traces session Step prog s

theorem Operates.steps {α : Type} {prog : Handler Server α} (operates : Operates prog s) :
    Steps prog s :=
  Relation.ReflTransGen.mono (fun _ _ => Step.operation) _ _ operates

theorem steps_readMaskCommitments : Steps readMaskCommitments s := by
  refine Traces.get_bind (Traces.ite (fun _ => Silent.traces keeps_advance) fun _ => ?_)
  refine Traces.silent_bind keeps_readSingleHeader fun _ _ _ => Traces.require_bind fun _ => ?_
  refine Traces.silent_bind (keeps_readExact _) fun _ _ _ => ?_
  refine Traces.modify_bind (Relation.ReflTransGen.single (.rekey _ _ _ _ _ _ _ _ _)) ?_
  exact Silent.traces keeps_advance

theorem steps_doEctf : Steps (doEctf env) s := by
  refine Traces.silent_bind keeps_readSingleHeader fun _ _ _ => Traces.require_bind fun _ => ?_
  refine Traces.modify_bind (Relation.ReflTransGen.single (.handshakeMode _)) ?_
  refine Traces.silent_bind keeps_readSingleHeader fun _ _ _ => Traces.require_bind fun _ => ?_
  refine Traces.silent_bind keeps_libraryRequest fun _ _ _ => Traces.ofOption_bind fun _ _ => ?_
  exact Silent.traces (keeps_bind (keeps_modify fun _ => rfl) fun _ => keeps_advance)

theorem steps_doKs : Steps (doKs env) s := by
  refine Traces.get_bind (Traces.silent_bind (keeps_dereference _) fun _ built same => ?_)
  rw [← same]
  refine Traces.modify_bind (Relation.ReflTransGen.single .handshakeCircuit) ?_
  refine Traces.silent_bind keeps_tick fun _ _ _ => Traces.ofOption_bind fun _ _ => ?_
  exact Silent.traces (keeps_bind (keeps_modify fun _ => rfl) fun _ => keeps_advance)

theorem steps_doCertWait : Steps (doCertWait env) s := by
  refine Traces.get_bind (Traces.ite (fun _ => Silent.traces keeps_advance) fun _ => ?_)
  refine Traces.silent_bind keeps_readSingleHeader fun _ _ _ => Traces.require_bind fun _ => ?_
  refine Traces.silent_bind keeps_readU64 fun _ _ _ => ?_
  refine Traces.silent_bind (keeps_reserveTranscript _) fun _ _ _ => Traces.get_bind ?_
  refine Traces.silent_bind (keeps_readTranscript _) fun _ _ _ => Traces.get_bind ?_
  refine Traces.require_bind fun _ => ?_
  refine Traces.modify_bind (Relation.ReflTransGen.single (.certificate _ _)) ?_
  exact Silent.traces keeps_advance

theorem steps_writeCertRecv (allowed : MayReveal s.session.log) :
    Steps (writeCertRecv env) s := by
  refine Traces.get_bind ?_
  refine Traces.modify_bind (Relation.ReflTransGen.single (.reveal _ _ allowed)) ?_
  exact Silent.traces (keeps_bind (keeps_write _) fun _ => keeps_advance)

theorem steps_deriveTs : Steps (deriveTs env) s := by
  refine Traces.silent_bind keeps_readSingleHeader fun _ _ _ => Traces.require_bind fun _ => ?_
  refine Traces.silent_bind (keeps_dereference _) fun _ _ _ => Traces.get_bind ?_
  refine Traces.silent_bind keeps_tick fun _ _ _ => Traces.ofOption_bind fun _ _ => ?_
  refine Traces.modify_bind (Relation.ReflTransGen.single (.rekey _ _ _ _ _ _ _ _ _)) ?_
  exact Silent.traces keeps_advance

theorem steps_deriveGcmShares : Steps (deriveGcmShares env) s := by
  refine Traces.silent_bind keeps_readSingleHeader fun _ _ _ => Traces.require_bind fun _ => ?_
  refine Traces.silent_bind (keeps_dereference _) fun _ _ _ => Traces.get_bind ?_
  refine Traces.silent_bind (keeps_makeGcmShareFor _) fun _ _ _ => ?_
  refine Traces.silent_bind (keeps_makeGcmShareFor _) fun _ _ _ => ?_
  refine Traces.modify_bind (Relation.ReflTransGen.single (.rekey _ _ _ _ _ _ _ _ _)) ?_
  exact Silent.traces keeps_advance

theorem steps_derivePsk : Steps (derivePsk env) s := by
  refine Traces.modify_bind Relation.ReflTransGen.refl (Traces.get_bind ?_)
  refine Traces.bind (Operates.steps (operates_readHeaderDrainingEncryption _)) fun _ _ _ => ?_
  refine Traces.ite (fun _ => ?_) fun _ => ?_
  · exact Silent.traces (keeps_bind (keeps_modify fun _ => rfl) fun _ => keeps_advance)
  · refine Traces.ofOption_bind fun _ _ => ?_
    refine Traces.silent_bind (keeps_requireCircuit _) fun _ _ _ => Traces.get_bind ?_
    refine Traces.silent_bind keeps_tick fun _ _ _ => Traces.ofOption_bind fun share _ => ?_
    refine Traces.modify_bind (Relation.ReflTransGen.single (.producePsk share)) ?_
    exact Silent.traces keeps_advance

theorem steps_attestAndShutdown : Steps (attestAndShutdown env) s := by
  refine Traces.get_bind (Traces.ite (fun _ => ?_) fun _ => Silent.traces (keeps_setState _))
  refine Traces.bind (Operates.steps (operates_attest _)) fun _ _ _ => ?_
  exact Silent.traces (keeps_setState _)

end Steps

end PracticalCrypto.Surf.Server
