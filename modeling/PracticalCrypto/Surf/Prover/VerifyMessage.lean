import PracticalCrypto.Surf.Prover.TlsRecord

/-!
# The `GCM_VERIFY` message

`verify_record_tag` of the prover writes a captured record as one message, and
`verify_gcm_tag` of the verifier reads it field by field. Both sides then compute the
block `J0` of the record by themselves, from an IV that they store at different offsets.

`readVerifyMessage` is the reading part of `verify_gcm_tag` and `checkMessage` is what
follows it. The reader is complete for the messages that the prover writes, and sound:
whatever `verify_gcm_tag` returns on was such a message.
-/

namespace PracticalCrypto.Surf

open Handler BlockMap

namespace Server

/-- The fields of a `GCM_VERIFY` message. -/
structure VerifyMessage where
  seq : UInt64
  aad : Bytes
  ciphertext : Bytes
  serverTag : Bytes
deriving Repr, DecidableEq

namespace VerifyMessage

/-- `u64 seq || u16 aad_len || aad || u32 ct_len || ct || tag`. -/
def bytes (message : VerifyMessage) : Bytes :=
  BigEndian.ofNat 8 message.seq.toNat ++ (BigEndian.ofNat 2 message.aad.length ++ (message.aad ++
    (BigEndian.ofNat 4 message.ciphertext.length ++ (message.ciphertext ++ message.serverTag))))

/-- The lengths that `verify_gcm_tag` insists on. -/
structure Admissible (message : VerifyMessage) : Prop where
  aad_length : message.aad.length = recordHeaderLength
  ciphertext_pos : 1 ≤ message.ciphertext.length
  ciphertext_le : message.ciphertext.length ≤ maxPlainLength + 1
  tag_length : message.serverTag.length = 16

end VerifyMessage

section Model

/-- The reads of `verify_gcm_tag`. -/
def readVerifyMessage : Handler Server VerifyMessage := do
  let seq ← readU64
  let aadLen ← readU16
  Handler.require (aadLen.toNat = recordHeaderLength)
  let aad ← readExact aadLen.toNat
  let ctLen ← readU32
  Handler.require (ctLen ≠ 0 ∧ ctLen.toNat ≤ maxPlainLength + 1)
  let ciphertext ← readExact ctLen.toNat
  let serverTag ← readExact 16
  pure ⟨seq, aad, ciphertext, serverTag⟩

/-- The input of the verification circuit for a message that was read. -/
def vfyInput (session : Session) (message : VerifyMessage) (tagShare : Block) : GcmVfyIn where
  key := session.serverKeyShare
  iv := verifyIv session.serverIv message.seq
  tagShare := tagShare
  serverTag := message.serverTag
  commitment := if session.mode.isCapture then session.keyCommitment else []

variable (env : Environment)

/-- What `verify_gcm_tag` does with the output of the circuit. -/
def judge (session : Session) (message : VerifyMessage) (out : GcmVfyOut) :
    Handler Server Unit := do
  Handler.require (out.cheated = false ∧ (session.mode.isCapture = true → out.keyOpened = true))
  if out.tagPassed = false then
    if session.mode = .rotate then writeSingleHeader env .tagReject else Handler.fail
  else do
    modifySession (attestRecord message.seq message.ciphertext)
    if session.mode = .rotate then writeSingleHeader env .tagOk else pure ()

/-- The run of the circuit and what follows it. -/
def runVerification (session : Session) (message : VerifyMessage) (tagShare : Block) :
    Handler Server Unit := do
  record (.verifyRequest message.seq)
  requireCircuit .gcmVfy
  let now ← tick
  let out ← Handler.ofOption (env.gcmVfy now (vfyInput session message tagShare))
  judge env session message out

/-- `verify_gcm_tag` after the reads. -/
def checkMessage (session : Session) (message : VerifyMessage) : Handler Server Unit := do
  let tagShare ← Handler.ofOption
    (ghashShare env.ghash session.serverGcmPowers message.aad message.ciphertext)
  runVerification env session message tagShare

end Model

section Reading

variable {env : Environment} {server : Server} {unread : Bytes}

theorem verifyGcmTag_eq : verifyGcmTag env = (do
    let server ← Handler.get
    Handler.require (server.session.mode.isCapture = true →
      server.session.keyCommitted = true ∧ server.session.keyReleased = false)
    let message ← readVerifyMessage
    checkMessage env server.session message) := by
  simp only [verifyGcmTag, readVerifyMessage, checkMessage, runVerification, judge, vfyInput,
    bind_assoc, pure_bind]

theorem eq_of_ensures {σ α : Type} {prog : Handler σ α} {s s' : σ} {value : α}
    (returns : Returns prog s)
    (known : Ensures prog (fun found after => found = value ∧ after = s') s) :
    prog s = (.returned value, s') := by
  rcases returns with ⟨found, after, ended⟩
  rcases known found after ended with ⟨rfl, rfl⟩
  exact ended

theorem readExact_eq {bytes : Bytes} {length : ℕ} (received : server.inbox = bytes ++ unread)
    (whole : bytes.length = length) :
    readExact length server = (.returned bytes, { server with inbox := unread }) := by
  subst whole
  apply eq_of_ensures (returns_readExact (by simp [received]))
  exact ensures_readBytes received

theorem readU64_eq {seq : UInt64}
    (received : server.inbox = BigEndian.ofNat 8 seq.toNat ++ unread) :
    readU64 server = (.returned seq, { server with inbox := unread }) := by
  apply eq_of_ensures _ (ensures_readU64 received)
  exact Returns.bind (returns_readExact (by simp [received])) fun _ _ _ => Returns.pure

theorem readU16_eq {value : ℕ} (small : value < 2 ^ 16)
    (received : server.inbox = BigEndian.ofNat 2 value ++ unread) :
    readU16 server = (.returned (UInt16.ofNat value), { server with inbox := unread }) := by
  apply eq_of_ensures
  · exact Returns.bind (returns_readExact (by simp [received])) fun _ _ _ => Returns.pure
  · refine (ensures_readU16 small received).mono ?_
    rintro read after ⟨rfl, rfl⟩
    simp

theorem readU32_eq {value : ℕ} (small : value < 2 ^ 32)
    (received : server.inbox = BigEndian.ofNat 4 value ++ unread) :
    readU32 server = (.returned (UInt32.ofNat value), { server with inbox := unread }) := by
  apply eq_of_ensures
  · exact Returns.bind (returns_readExact (by simp [received])) fun _ _ _ => Returns.pure
  · refine (ensures_readU32 small received).mono ?_
    rintro read after ⟨rfl, rfl⟩
    simp

/-- An admissible message is read as it was written, and nothing after it is touched. -/
theorem readVerifyMessage_complete {message : VerifyMessage} (admissible : message.Admissible)
    (received : server.inbox = message.bytes ++ unread) :
    readVerifyMessage server = (.returned message, { server with inbox := unread }) := by
  rcases admissible with ⟨aadLength, ctPos, ctLe, tagLength⟩
  have ctSmall : message.ciphertext.length < 2 ^ 32 := by
    rw [maxPlainLength] at ctLe
    omega
  have aadSmall : message.aad.length < 2 ^ 16 := by
    rw [aadLength]
    decide
  have aadLen : (UInt16.ofNat message.aad.length).toNat = message.aad.length :=
    UInt16.toNat_ofNat_of_lt' aadSmall
  have ctLen : (UInt32.ofNat message.ciphertext.length).toNat = message.ciphertext.length :=
    UInt32.toNat_ofNat_of_lt' ctSmall
  have ctNonzero : UInt32.ofNat message.ciphertext.length ≠ 0 := by
    intro zero
    have lengths := congrArg UInt32.toNat zero
    rw [ctLen] at lengths
    change message.ciphertext.length = 0 at lengths
    omega
  simp only [VerifyMessage.bytes, List.append_assoc] at received
  rw [readVerifyMessage, bind_of_returned (readU64_eq received),
    bind_of_returned (readU16_eq aadSmall rfl), aadLen, require_true aadLength, pure_bind,
    bind_of_returned (readExact_eq rfl rfl), bind_of_returned (readU32_eq ctSmall rfl), ctLen,
    require_true ⟨ctNonzero, ctLe⟩, pure_bind, bind_of_returned (readExact_eq rfl rfl),
    bind_of_returned (readExact_eq rfl tagLength)]
  rfl

/-- Bytes that were read are the encoding of the integer they store. -/
theorem ensures_readNat (width : ℕ) :
    Ensures (readExact width)
      (fun bytes after => BigEndian.toNat bytes < 256 ^ width ∧
        ∃ later, server.inbox = BigEndian.ofNat width (BigEndian.toNat bytes) ++ later ∧
          after = { server with inbox := later })
      server := by
  refine (ensures_readExact width).mono ?_
  rintro bytes after ⟨available, rfl, rfl⟩
  have whole : (server.inbox.take width).length = width := by
    rw [List.length_take]
    omega
  have encoded := BigEndian.ofNat_toNat (server.inbox.take width)
  rw [whole] at encoded
  constructor
  · have stored := BigEndian.toNat_ofNat width (BigEndian.toNat (server.inbox.take width))
    rw [encoded] at stored
    rw [stored]
    exact Nat.mod_lt _ (Nat.pow_pos (by decide))
  · refine ⟨server.inbox.drop width, ?_, rfl⟩
    rw [encoded, List.take_append_drop]

theorem ensures_readPart (length : ℕ) :
    Ensures (readExact length)
      (fun bytes after => bytes.length = length ∧
        ∃ later, server.inbox = bytes ++ later ∧ after = { server with inbox := later })
      server := by
  refine (ensures_readExact length).mono ?_
  rintro bytes after ⟨available, rfl, rfl⟩
  constructor
  · rw [List.length_take]
    omega
  · exact ⟨server.inbox.drop length, (List.take_append_drop _ _).symm, rfl⟩

theorem readVerifyMessage_sound :
    Ensures readVerifyMessage
      (fun message after => message.Admissible ∧
        ∃ later, server.inbox = message.bytes ++ later ∧ after = { server with inbox := later })
      server := by
  refine Ensures.bind (Ensures.bind ((ensures_readNat 8).mono ?_))
  rintro seqBytes _ ⟨seqSmall, afterSeq, seqEncoded, rfl⟩
  refine Ensures.pure ?_
  refine Ensures.bind (Ensures.bind ((ensures_readNat 2).mono ?_))
  rintro aadLenBytes _ ⟨aadSmall, afterAadLen, (rfl : afterSeq = _), rfl⟩
  refine Ensures.pure ?_
  refine Ensures.require_bind fun aadLength => ?_
  refine Ensures.bind ((ensures_readPart _).mono ?_)
  rintro aad _ ⟨aadWhole, afterAad, (rfl : afterAadLen = _), rfl⟩
  refine Ensures.bind (Ensures.bind ((ensures_readNat 4).mono ?_))
  rintro ctLenBytes _ ⟨ctSmall, afterCtLen, (rfl : afterAad = _), rfl⟩
  refine Ensures.pure ?_
  refine Ensures.require_bind fun ctLength => ?_
  refine Ensures.bind ((ensures_readPart _).mono ?_)
  rintro ciphertext _ ⟨ctWhole, afterCt, (rfl : afterCtLen = _), rfl⟩
  refine Ensures.bind ((ensures_readPart _).mono ?_)
  rintro serverTag _ ⟨tagWhole, later, (rfl : afterCt = _), rfl⟩
  refine Ensures.pure ?_
  have seqValue : (UInt64.ofNat (BigEndian.toNat seqBytes)).toNat = BigEndian.toNat seqBytes :=
    UInt64.toNat_ofNat_of_lt' seqSmall
  have aadValue : (UInt16.ofNat (BigEndian.toNat aadLenBytes)).toNat =
      BigEndian.toNat aadLenBytes := UInt16.toNat_ofNat_of_lt' aadSmall
  have ctValue : (UInt32.ofNat (BigEndian.toNat ctLenBytes)).toNat =
      BigEndian.toNat ctLenBytes := UInt32.toNat_ofNat_of_lt' ctSmall
  constructor
  · constructor
    · exact aadWhole.trans aadLength
    · rw [ctWhole]
      exact Nat.pos_of_ne_zero fun zero => ctLength.1 (UInt32.toNat_inj.mp zero)
    · rw [ctWhole]
      exact ctLength.2
    · exact tagWhole
  · refine ⟨later, ?_, rfl⟩
    rw [seqEncoded]
    simp only [VerifyMessage.bytes, List.append_assoc, aadWhole, ctWhole, seqValue, aadValue,
      ctValue]

theorem silent_checkMessage (session : Session) (message : VerifyMessage) :
    Silent (fun server : Server => server.inbox) (checkMessage env session message) := by
  have asking : Silent (fun server : Server => server.inbox) tick :=
    keeps_bind keeps_get fun _ => keeps_bind (keeps_modify fun _ => rfl) fun _ => keeps_pure _
  have writing : ∀ header,
      Silent (fun server : Server => server.inbox) (writeSingleHeader env header) := fun header =>
    keeps_bind asking fun _ => keeps_bind (keeps_require _) fun _ => keeps_modify fun _ => rfl
  refine keeps_bind (keeps_ofOption _) fun tagShare => ?_
  refine keeps_bind (keeps_modify fun _ => rfl) fun _ => ?_
  refine keeps_bind (keeps_bind keeps_get fun _ => keeps_require _) fun _ => ?_
  refine keeps_bind asking fun _ => keeps_bind (keeps_ofOption _) fun out => ?_
  refine keeps_bind (keeps_require _) fun _ => ?_
  apply keeps_ite
  · exact keeps_ite (writing _) keeps_fail
  · apply keeps_bind
    · exact keeps_modify fun _ => rfl
    · exact fun _ => keeps_ite (writing _) (keeps_pure _)

/-- `verify_gcm_tag` returns on admissible messages only, and takes exactly such a message. -/
theorem ensures_verifyGcmTag_admissible :
    Ensures (verifyGcmTag env)
      (fun _ after => ∃ message : VerifyMessage, message.Admissible ∧
        ∃ later, server.inbox = message.bytes ++ later ∧ after.inbox = later)
      server := by
  rw [verifyGcmTag_eq]
  refine Ensures.get_bind (Ensures.require_bind fun _ => ?_)
  refine Ensures.bind (readVerifyMessage_sound.mono ?_)
  rintro message _ ⟨admissible, later, received, rfl⟩
  refine (Keeps.ensures (silent_checkMessage server.session message)).mono ?_
  intro _ after untouched
  exact ⟨message, admissible, later, received, untouched⟩

end Reading

section Counter

/-- The block that `verify_gcm_tag` builds inline is `ctr_block` with the counter 1. -/
theorem verifyIv_eq_ctrBlock (serverIv : Iv) (seq : UInt64) :
    verifyIv serverIv seq = ctrBlock serverIv seq 1 := by
  funext i
  by_cases inNonce : i.val < 12
  · simp only [verifyIv, ctrBlock, dif_pos inNonce]
    exact UInt8.xor_comm _ _
  · simp only [verifyIv, ctrBlock, dif_neg inNonce]
    have lastBytes : ∀ i : Fin 16, ¬i.val < 12 →
        (if i.val = 15 then 1 else 0 : UInt8) =
          ((1 : UInt32) >>> UInt32.ofNat (8 * (15 - i.val))).toUInt8 := by
      decide
    exact lastBytes i inNonce

end Counter

end Server

namespace Prover

open Server

/-- The message that `verify_record_tag` writes for a captured record. -/
def verifyMessageOf (captured : SurfRecord) : VerifyMessage where
  seq := captured.seq
  aad := recordAad captured.ciphertext
  ciphertext := captured.ciphertext
  serverTag := List.ofFn captured.tag

theorem gcmVerifyMessage_eq (captured : SurfRecord) :
    gcmVerifyMessage captured =
      MessageHeader.toByte .gcmVerify :: (verifyMessageOf captured).bytes := by
  simp [gcmVerifyMessage, verifyMessageOf, VerifyMessage.bytes]

theorem verifyMessageOf_admissible {captured : SurfRecord}
    (nonempty : 1 ≤ captured.ciphertext.length)
    (short : captured.ciphertext.length ≤ 16385) : (verifyMessageOf captured).Admissible where
  aad_length := rfl
  ciphertext_pos := nonempty
  ciphertext_le := short
  tag_length := List.length_ofFn

/-- The last message that `verify_record_tag` writes is the one of the captured record. -/
theorem ensures_verifyRecordTag_sent {env : Environment} {ssl : Ssl} {captured : SurfRecord}
    (recordIndex : ℕ) (wantsVerdict : Bool)
    (found : ssl.surfRecords[recordIndex]? = some captured) :
    Ensures (verifyRecordTag env recordIndex wantsVerdict)
      (fun _ after => after.sent.getLast? = some (gcmVerifyMessage captured)) ssl := by
  have asking : Silent (fun ssl : Ssl => ssl.sent) tick :=
    keeps_bind keeps_get fun _ => keeps_bind (keeps_modify fun _ => rfl) fun _ => keeps_pure _
  have verdict : ∀ out, Silent (fun ssl : Ssl => ssl.sent) (readVerdict env out wantsVerdict) := by
    intro out
    refine keeps_bind (keeps_bind asking fun _ => keeps_ofOption _) fun _ => ?_
    refine keeps_bind (keeps_require _) fun _ => ?_
    exact keeps_ite (keeps_pure _) (keeps_ite (keeps_pure _) keeps_fail)
  refine Ensures.get_bind (Ensures.require_bind fun _ => ?_)
  refine Ensures.ofOption_bind fun record isRecord => ?_
  obtain rfl : captured = record := Option.some.inj (found.symm.trans isRecord)
  refine Ensures.bind (fun _ committed _ => ?_)
  refine Ensures.bind ((ensures_sslWrite _).mono ?_)
  rintro _ written rfl
  refine Ensures.get_bind (Ensures.ofOption_bind fun tagShare _ => ?_)
  -- nothing is written after the message
  refine Ensures.mono (Keeps.ensures (?_ : Keeps (Same fun ssl : Ssl => ssl.sent) _)) ?_
  · refine keeps_bind asking fun _ => keeps_bind (keeps_ofOption _) fun out => ?_
    apply keeps_ite
    · exact verdict out
    · exact keeps_bind (keeps_require _) fun _ => keeps_pure _
  · intro _ after nothingWritten
    have sent : after.sent = committed.sent ++ [gcmVerifyMessage captured] := nothingWritten
    simp [sent]

/-- An admissible record reaches the circuit, with the fields that the prover has written. -/
theorem verifyGcmTag_of_received {env : Surf.Environment} {server : Server} {captured : SurfRecord}
    {unread : Bytes} (nonempty : 1 ≤ captured.ciphertext.length)
    (short : captured.ciphertext.length ≤ 16385)
    (received : MessageHeader.toByte .gcmVerify :: server.inbox =
      gcmVerifyMessage captured ++ unread)
    (admitted : server.session.mode.isCapture = true →
      server.session.keyCommitted = true ∧ server.session.keyReleased = false) :
    verifyGcmTag env server =
      runVerification env server.session (verifyMessageOf captured)
        (env.ghash server.session.serverGcmPowers (recordAad captured.ciphertext)
          captured.ciphertext)
        { server with inbox := unread } := by
  rw [gcmVerifyMessage_eq, List.cons_append] at received
  have inbox := (List.cons.inj received).2
  have powers : ¬blocksOf (recordAad captured.ciphertext).length +
      blocksOf captured.ciphertext.length + 1 > 1088 := by
    simp only [recordAad, recordHeader, List.length_cons, List.length_nil, blocksOf]
    omega
  rw [verifyGcmTag_eq]
  calc _ = (Handler.require (server.session.mode.isCapture = true →
          server.session.keyCommitted = true ∧ server.session.keyReleased = false) >>= fun _ =>
          readVerifyMessage >>= checkMessage env server.session) server := rfl
    _ = (readVerifyMessage >>= checkMessage env server.session) server := by
        rw [require_true admitted, pure_bind]
    _ = checkMessage env server.session (verifyMessageOf captured)
          { server with inbox := unread } :=
        bind_of_returned
          (readVerifyMessage_complete (verifyMessageOf_admissible nonempty short) inbox)
    _ = _ := by
        rw [checkMessage, verifyMessageOf, ghashShare, if_neg powers]
        rfl

/--
A captured record is decoded as it was encoded: `verify_gcm_tag` goes on with its sequence
number, its AAD, its ciphertext and its tag and leaves the bytes after the message, and
both parties give the circuit `ctr_block(server_iv, seq, 1)`. It returns on no message
with other lengths.
-/
theorem verifyGcmTag_decodes :
    (∀ (env : Surf.Environment) (server : Server) (ssl : Ssl) (captured : SurfRecord)
        (unread : Bytes),
      1 ≤ captured.ciphertext.length → captured.ciphertext.length ≤ 16385 →
      MessageHeader.toByte .gcmVerify :: server.inbox = gcmVerifyMessage captured ++ unread →
      (server.session.mode.isCapture = true →
        server.session.keyCommitted = true ∧ server.session.keyReleased = false) →
      staticIv ssl.serverIv = server.session.serverIv →
        (∀ proverEnv recordIndex wantsVerdict, ssl.surfRecords[recordIndex]? = some captured →
          Ensures (verifyRecordTag proverEnv recordIndex wantsVerdict)
            (fun _ after => after.sent.getLast? = some (gcmVerifyMessage captured)) ssl) ∧
        (recordAad captured.ciphertext).length = 5 ∧
        verifyGcmTag env server =
          runVerification env server.session
            ⟨captured.seq, recordAad captured.ciphertext, captured.ciphertext,
              List.ofFn captured.tag⟩
            (env.ghash server.session.serverGcmPowers (recordAad captured.ciphertext)
              captured.ciphertext)
            { server with inbox := unread } ∧
        ∀ tagShare,
          (vfyInput server.session (verifyMessageOf captured) tagShare).iv =
              ctrBlock server.session.serverIv captured.seq 1 ∧
            (gcmVfyInput ssl captured tagShare).iv =
              ctrBlock server.session.serverIv captured.seq 1) ∧
    ∀ (env : Surf.Environment) (server : Server) (value : Unit) (after : Server),
      verifyGcmTag env server = (.returned value, after) →
        ∃ message : VerifyMessage, message.aad.length = 5 ∧ 1 ≤ message.ciphertext.length ∧
          message.ciphertext.length ≤ 16385 ∧ message.serverTag.length = 16 ∧
          server.inbox = message.bytes ++ after.inbox := by
  constructor
  · intro env server ssl captured unread nonempty short received admitted sameIv
    refine ⟨?_, rfl, verifyGcmTag_of_received nonempty short received admitted, ?_⟩
    · intro proverEnv recordIndex wantsVerdict found
      exact ensures_verifyRecordTag_sent recordIndex wantsVerdict found
    · intro tagShare
      constructor
      · exact verifyIv_eq_ctrBlock server.session.serverIv captured.seq
      · rw [← sameIv]
        exact verifyIv_eq_ctrBlock (staticIv ssl.serverIv) captured.seq
  · intro env server value after returned
    rcases ensures_verifyGcmTag_admissible value after returned with
      ⟨message, admissible, later, received, rest⟩
    rw [rest]
    exact ⟨message, admissible.aad_length, admissible.ciphertext_pos, admissible.ciphertext_le,
      admissible.tag_length, received⟩

/-- A verifier with the IV of the bytes 1 to 12 that has received a record of one byte. -/
def countingServer : Server :=
  { Server.initial .masked with
    inbox := (gcmVerifyMessage ⟨[171], fun _ => 9, 3⟩).tail ++ [7]
    session := { (Server.initial .masked).session with serverIv := fun i => UInt8.ofNat (i.val + 1) } }

/-- The prover with the same IV. -/
def countingSsl : Ssl := { Ssl.initial .masked with serverIv := fun i => UInt8.ofNat (i.val - 3) }

theorem verifyGcmTag_decodes_one_byte :
    verifyGcmTag (Surf.Environment.cooperative [] 0) countingServer =
        runVerification (Surf.Environment.cooperative [] 0) countingServer.session
          ⟨3, [23, 3, 3, 0, 17], [171], List.replicate 16 9⟩ (fun _ => 0)
          { countingServer with inbox := [7] } ∧
      List.ofFn (gcmVfyInput countingSsl ⟨[171], fun _ => 9, 3⟩ (fun _ => 0)).iv =
        [1, 2, 3, 4, 5, 6, 7, 8, 9, 10, 11, 15, 0, 0, 0, 1] := by
  have decoded := verifyGcmTag_decodes.1 (Surf.Environment.cooperative [] 0) countingServer
    countingSsl ⟨[171], fun _ => 9, 3⟩ [7] (by decide) (by decide) rfl nofun rfl
  refine ⟨decoded.2.2.1, ?_⟩
  rw [(decoded.2.2.2 fun _ => 0).2]
  decide

end Prover

end PracticalCrypto.Surf
