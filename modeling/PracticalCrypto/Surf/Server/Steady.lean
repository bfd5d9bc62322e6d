import PracticalCrypto.Surf.Server.Progress

/-!
# Handlers that never end the process of the verifier

Most handlers of `nodes/Server.cpp` return or fail whatever the prover sends, and
they neither build nor drop a circuit nor change the selected key share. This file
shows it for the reads and writes and for the handlers of encryption and
attestation. The tag handler reads the last sequence number without looking
whether there is one; no ciphertext is ever held without its sequence number.
-/

namespace PracticalCrypto.Surf

open BlockMap Handler

namespace Server

section Gear

/-- Ciphertext is only kept for a record that was encrypted. -/
def NoOrphan (session : Session) : Prop := session.encryptedCt ≠ [] → session.encryptedSeqs ≠ []

/-- The circuits and the choice of the key share stay. -/
structure SameGear (before after : Server) : Prop where
  circuits : after.circuits = before.circuits
  active : after.activeKeyShare = before.activeKeyShare
  keyShare : after.keyShareA = before.keyShareA

/-- Moreover, no ciphertext is orphaned. -/
structure Tidy (before after : Server) : Prop extends SameGear before after where
  encrypted : NoOrphan before.session → NoOrphan after.session

instance : SessionBlind SameGear where
  refl _ := ⟨rfl, rfl, rfl⟩
  trans _ _ _ first second :=
    ⟨second.circuits.trans first.circuits, second.active.trans first.active,
      second.keyShare.trans first.keyShare⟩
  io _ _ _ _ _ _ _ _ := ⟨rfl, rfl, rfl⟩
  session _ _ := ⟨rfl, rfl, rfl⟩

instance : IoBlind Tidy where
  refl server := ⟨refl server, id⟩
  trans _ _ _ first second :=
    ⟨IsTrans.trans _ _ _ first.toSameGear second.toSameGear, second.encrypted ∘ first.encrypted⟩
  io _ _ _ _ _ _ _ _ := ⟨⟨rfl, rfl, rfl⟩, id⟩

variable {env : Environment} {rel : Server → Server → Prop} [IoBlind rel]

theorem steady_tick : Steady rel tick :=
  steady_bind steady_get fun _ =>
    steady_bind (steady_modify fun server => IoBlind.io server 0 _ _ _ _ _ _) fun _ => steady_pure _

theorem steady_readExact (length : ℕ) : Steady rel (readExact length) :=
  steady_bind steady_get fun _ =>
    steady_bind (steady_modify fun server => IoBlind.io server length _ _ _ _ _ _) fun _ =>
      steady_bind (steady_require _) fun _ => steady_pure _

theorem steady_readSingleHeader : Steady rel readSingleHeader :=
  steady_bind (steady_readExact 1) fun _ => steady_ofOption _

theorem steady_readU16 : Steady rel readU16 :=
  steady_bind (steady_readExact 2) fun _ => steady_pure _

theorem steady_readU32 : Steady rel readU32 :=
  steady_bind (steady_readExact 4) fun _ => steady_pure _

theorem steady_readU64 : Steady rel readU64 :=
  steady_bind (steady_readExact 8) fun _ => steady_pure _

theorem steady_write (bytes : Bytes) : Steady rel (write env bytes) :=
  steady_bind steady_tick fun _ =>
    steady_bind (steady_require _) fun _ =>
      steady_modify fun server => IoBlind.io server 0 _ _ _ _ _ _

theorem steady_requireCircuit (circuit : Circuit) : Steady rel (requireCircuit circuit) :=
  steady_bind steady_get fun _ => steady_require _

theorem steady_pending : Steady rel (pending env) :=
  steady_bind steady_tick fun _ => steady_bind steady_get fun _ => steady_pure _

theorem steady_readSome : Steady rel (readSome env) := by
  refine steady_bind steady_tick fun _ => steady_bind steady_get fun _ => ?_
  refine steady_bind (steady_require _) fun _ => steady_bind ?_ fun _ => steady_pure _
  exact steady_modify fun server => IoBlind.io server _ _ _ _ _ _ _

theorem steady_readKeyshare (expected : MessageHeader) : Steady rel (readKeyshare env expected) := by
  refine steady_bind steady_readSome fun _ => steady_bind (steady_ofOption _) fun _ => ?_
  refine steady_bind ?_ fun _ => steady_require _
  exact steady_modify fun server => IoBlind.io server 0 _ _ _ _ _ _

theorem steady_readTranscript (fuel : ℕ) : Steady rel (readTranscript env fuel) := by
  induction fuel with
  | zero => exact steady_fail
  | succ fuel ih =>
      refine steady_bind steady_readSome fun _ => steady_bind ?_ fun _ => ?_
      · exact steady_modify fun server => IoBlind.io server 0 _ _ _ _ _ _
      · exact steady_bind steady_pending fun _ => steady_ite ih (steady_pure _)

theorem steady_readRecordDims : Steady rel readRecordDims :=
  steady_bind (steady_readExact _) fun _ => steady_bind (steady_require _) fun _ => steady_pure _

end Gear

section Attestation

variable {env : Environment} {s : Server}

theorem steady_modifySession {change : Session → Session}
    (kept : ∀ session, NoOrphan session → NoOrphan (change session)) :
    Steady Tidy (modifySession change) :=
  steady_modify fun server => ⟨⟨rfl, rfl, rfl⟩, kept server.session⟩

theorem steady_record (event : Event) : Steady Tidy (record event) :=
  steady_modifySession fun _ => id

theorem steady_encryptBatch (seq : UInt64) (nblocks batch : ℕ) :
    Steady SameGear (encryptBatch env seq nblocks batch) := by
  refine steady_bind steady_get fun _ => ?_
  refine steady_bind (steady_modify fun _ => SessionBlind.session _ _) fun _ => ?_
  refine steady_bind steady_tick fun _ => steady_bind (steady_ofOption _) fun _ => ?_
  refine steady_bind (steady_require _) fun _ => ?_
  exact steady_modify fun _ => SessionBlind.session _ _

theorem ensures_encryptBlocks :
    Ensures (encryptBlocks env) (fun _ after => NoOrphan after.session) s := by
  refine Ensures.bind fun _ _ _ => Ensures.bind fun seq _ _ => Ensures.get_bind ?_
  refine Ensures.require_bind fun _ => Ensures.bind fun _ _ _ => Ensures.require_bind fun _ => ?_
  refine Ensures.modify_bind (Ensures.bind fun _ _ _ => Ensures.modify ?_)
  intro _
  exact List.concat_ne_nil _ _

/-- The blocks are kept before the record counts as encrypted, but a failure ends the connection. -/
theorem steady_encryptBlocks : Steady Tidy (encryptBlocks env) := by
  have gear : Steady SameGear (encryptBlocks env) := by
    refine steady_bind (steady_requireCircuit _) fun _ => steady_bind steady_readU64 fun _ => ?_
    refine steady_bind steady_get fun _ => steady_bind (steady_require _) fun _ => ?_
    refine steady_bind steady_readU32 fun _ => steady_bind (steady_require _) fun _ => ?_
    refine steady_bind (steady_modify fun _ => SessionBlind.session _ _) fun _ => ?_
    refine steady_bind (steady_forEach (steady_encryptBatch _ _) _) fun _ => ?_
    exact steady_modify fun _ => SessionBlind.session _ _
  intro s
  apply ((gear s).and ensures_encryptBlocks).mono
  rintro _ after ⟨same, encrypted⟩
  exact ⟨same, fun _ => encrypted⟩

theorem Tidy.survives {α : Type} {prog : Handler Server α} (steady : Steady Tidy prog)
    (encrypted : NoOrphan s.session) :
    Survives prog (fun _ after => NoOrphan after.session) s := by
  apply (steady s).mono
  intro _ after tidy
  exact tidy.encrypted encrypted

theorem Tidy.survives_bind {α β : Type} {prog : Handler Server α} {next : α → Handler Server β}
    {post : β → Server → Prop} (steady : Steady Tidy prog) (encrypted : NoOrphan s.session)
    (rest : ∀ value after, NoOrphan after.session → Survives (next value) post after) :
    Survives (prog >>= next) post s :=
  Survives.bind ((Tidy.survives steady encrypted).mono rest)

/-- The one access to the sequence numbers that could find none of them. -/
theorem survives_makeGcmTag (encrypted : NoOrphan s.session) :
    Survives (makeGcmTag env) (fun _ after => NoOrphan after.session) s := by
  refine Tidy.survives_bind (steady_requireCircuit _) encrypted fun _ _ orphan => ?_
  refine Tidy.survives_bind steady_readU16 orphan fun _ _ orphan => ?_
  refine Survives.require_bind fun _ => ?_
  refine Tidy.survives_bind (steady_readExact _) orphan fun _ _ orphan => ?_
  refine Tidy.survives_bind (steady_modifySession fun _ => id) orphan fun _ _ orphan => ?_
  refine Tidy.survives_bind steady_readU32 orphan fun _ _ orphan => ?_
  refine Survives.get_bind (Survives.require_bind fun held => ?_)
  split
  · rename_i none
    exact absurd (List.getLast?_eq_none_iff.mp none) (orphan held.2)
  · refine Tidy.survives (steady_bind (steady_ofOption _) fun _ => ?_) orphan
    refine steady_bind (steady_modifySession fun _ => id) fun _ => ?_
    refine steady_bind steady_tick fun _ => steady_bind (steady_ofOption _) fun _ => ?_
    exact steady_require _

theorem steady_verifyGcmTag : Steady Tidy (verifyGcmTag env) := by
  refine steady_bind steady_get fun _ => steady_bind (steady_require _) fun _ => ?_
  refine steady_bind steady_readU64 fun _ => steady_bind steady_readU16 fun _ => ?_
  refine steady_bind (steady_require _) fun _ => steady_bind (steady_readExact _) fun _ => ?_
  refine steady_bind steady_readU32 fun _ => steady_bind (steady_require _) fun _ => ?_
  refine steady_bind (steady_readExact _) fun _ => steady_bind (steady_readExact _) fun _ => ?_
  refine steady_bind (steady_ofOption _) fun _ => steady_bind (steady_record _) fun _ => ?_
  refine steady_bind (steady_requireCircuit _) fun _ => steady_bind steady_tick fun _ => ?_
  refine steady_bind (steady_ofOption _) fun _ => ?_
  refine steady_bind (steady_require _) fun _ => steady_ite ?_ ?_
  · exact steady_ite (steady_write _) steady_fail
  · refine steady_bind (steady_modifySession fun _ => id) fun _ => ?_
    exact steady_ite (steady_write _) (steady_pure _)

theorem steady_readKeyCommitment : Steady Tidy readKeyCommitment := by
  refine steady_bind steady_get fun _ => steady_bind (steady_require _) fun _ => ?_
  exact steady_bind (steady_readExact _) fun _ => steady_modifySession fun _ => id

theorem steady_releaseKey : Steady Tidy (releaseKey env) := by
  refine steady_bind steady_get fun _ => steady_bind (steady_require _) fun _ => ?_
  exact steady_bind (steady_modifySession fun _ => id) fun _ => steady_write _

/-- The two-party library does not end the process, and the prover reports no inconsistency. -/
structure LibraryStays (env : Environment) : Prop where
  exits : ∀ now, env.exits now = false
  consistent : ∀ now, env.gcmConsistent now = true

variable (stays : LibraryStays env)

include stays

theorem steady_libraryRequest {rel : Server → Server → Prop} [IoBlind rel] :
    Steady rel (libraryRequest env) := by
  refine steady_bind steady_tick fun now => ?_
  rw [if_neg (by simp [stays.exits now])]
  exact steady_pure _

theorem steady_keystreamBatch (records : List RecordDims) (nblocks batch : ℕ) :
    Steady Tidy (keystreamBatch env records nblocks batch) := by
  refine steady_bind (steady_libraryRequest stays) fun _ => steady_bind (steady_require _) fun _ => ?_
  refine steady_bind (steady_ofOption _) fun _ => steady_bind steady_get fun _ => ?_
  refine steady_bind (steady_modifySession fun _ => id) fun _ => steady_bind steady_tick fun _ => ?_
  exact steady_require _

theorem steady_deriveKeystreamBlocks : Steady Tidy (deriveKeystreamBlocks env) := by
  refine steady_bind (steady_requireCircuit _) fun _ => steady_bind steady_readU32 fun _ => ?_
  refine steady_bind (steady_require _) fun _ => ?_
  refine steady_bind (steady_collect (fun _ => steady_readRecordDims) _) fun _ => ?_
  refine steady_bind (steady_modifySession fun _ => id) fun _ => steady_bind steady_get fun _ => ?_
  refine steady_bind (steady_require _) fun _ => ?_
  exact steady_forEach (steady_keystreamBatch stays _ _) _

theorem steady_makeGcmShareFor (keyShare : Block) : Steady Tidy (makeGcmShareFor env keyShare) := by
  refine steady_bind (steady_libraryRequest stays) fun now => ?_
  rw [if_pos (stays.consistent now)]
  exact steady_ofOption _

theorem steady_rotateKeyOp : Steady Tidy (rotateKeyOp env) := by
  refine steady_bind steady_get fun _ => steady_bind (steady_require _) fun _ => ?_
  refine steady_bind (steady_requireCircuit _) fun _ =>
    steady_bind (steady_requireCircuit _) fun _ => ?_
  refine steady_bind (steady_readExact _) fun _ => steady_bind (steady_ofOption _) fun direction => ?_
  refine steady_bind (steady_require _) fun _ => steady_bind steady_tick fun _ => ?_
  refine steady_bind (steady_ofOption _) fun _ => ?_
  cases direction with
  | client =>
      refine steady_bind (steady_modifySession fun _ => id) fun _ => ?_
      refine steady_bind (steady_makeGcmShareFor stays _) fun _ => ?_
      exact steady_modifySession fun _ _ kept => absurd rfl kept
  | server =>
      refine steady_bind (steady_modifySession fun _ => id) fun _ => ?_
      refine steady_bind (steady_makeGcmShareFor stays _) fun _ => ?_
      exact steady_modifySession fun _ => id

theorem survives_dispatch {header : MessageHeader} {handler : Handler Server Unit}
    (encrypted : NoOrphan s.session) (found : dispatch env header = some handler) :
    Survives handler (fun _ after => NoOrphan after.session) s := by
  cases header with
  | aesEnc =>
      cases found
      exact Tidy.survives steady_encryptBlocks encrypted
  | gcmTag =>
      cases found
      exact survives_makeGcmTag encrypted
  | gcmVerify =>
      cases found
      exact Tidy.survives steady_verifyGcmTag encrypted
  | ksDerive =>
      cases found
      exact Tidy.survives (steady_deriveKeystreamBlocks stays) encrypted
  | keyCommit =>
      cases found
      exact Tidy.survives steady_readKeyCommitment encrypted
  | keyRelease =>
      cases found
      exact Tidy.survives steady_releaseKey encrypted
  | rotateKey =>
      cases found
      exact Tidy.survives (steady_rotateKeyOp stays) encrypted
  | _ => cases found

theorem survives_readHeaderDrainingEncryption (encrypted : NoOrphan s.session) (fuel : ℕ) :
    Survives (readHeaderDrainingEncryption env fuel) (fun _ after => NoOrphan after.session) s := by
  induction fuel generalizing s with
  | zero => exact Survives.fail
  | succ fuel ih =>
      apply Tidy.survives_bind steady_readSingleHeader encrypted
      intro header headed orphan
      apply Tidy.survives_bind (steady_record _) orphan
      intro _ noted orphan
      split
      · rename_i handler found
        apply Survives.bind
        apply (survives_dispatch stays orphan found).mono
        intro _ handled kept
        exact ih kept
      · exact Survives.pure orphan

theorem survives_attest (encrypted : NoOrphan s.session) (fuel : ℕ) :
    Survives (attest env fuel) (fun _ after => NoOrphan after.session) s := by
  rw [attest_eq_drain]
  apply Survives.bind
  apply (survives_readHeaderDrainingEncryption stays encrypted fuel).mono
  intro header drained orphan
  exact Survives.require fun _ => orphan

end Attestation

end Server

end PracticalCrypto.Surf
