import PracticalCrypto.Surf.Prover.Keystream
import PracticalCrypto.Surf.Prover.Release
import PracticalCrypto.Surf.Server.Progress

/-!
# Both parties feed the same counter blocks

A `KeystreamCall` is a call of `derive_keystream` with the verifier that serves its
message by `derive_keystream_blocks`. Each party resolves the slots by itself, and either
may stop early, so each is shown to feed a first part of the same batches, and all of
them if it returns. Nothing is asked of a call but that its record was captured and its
tag verified, so what lies between the calls of a sequence does not matter as long as
the parties keep the IV of the server, which the masked mode never rotates.
-/

namespace PracticalCrypto.Surf

open BlockMap Handler

namespace Server

variable {env : Environment} {server : Server} {entry : RecordDims}

section Decoding

/-- A record of a `KS_DERIVE` message. -/
def encodeDims (entry : RecordDims) : Bytes :=
  BigEndian.ofNat 8 entry.seq.toNat ++ BigEndian.ofNat 4 entry.ctLen.toNat

theorem length_encodeDims (entry : RecordDims) : (encodeDims entry).length = 12 := by
  simp [encodeDims]

theorem decode_encodeDims (entry : RecordDims) :
    (⟨UInt64.ofNat (BigEndian.toNat ((encodeDims entry).take 8)),
      UInt32.ofNat (BigEndian.toNat ((encodeDims entry).drop 8))⟩ : RecordDims) = entry := by
  rw [encodeDims, List.take_left' (BigEndian.length_ofNat 8 _),
    List.drop_left' (BigEndian.length_ofNat 8 _), BigEndian.toNat_ofNat, BigEndian.toNat_ofNat]
  norm_num

theorem ensures_readRecordDims {unread : Bytes}
    (received : server.inbox = encodeDims entry ++ unread) :
    Ensures readRecordDims
      (fun value after => value = entry ∧ after = { server with inbox := unread }) server := by
  rw [readRecordDims, ← length_encodeDims entry]
  refine Ensures.bind ((ensures_readBytes received).mono ?_)
  rintro _ _ ⟨rfl, rfl⟩
  refine Ensures.require_bind fun _ => ?_
  exact Ensures.pure ⟨decode_encodeDims entry, rfl⟩

/-- The lengths that the verifier accepts for a record. -/
def Admissible (entry : RecordDims) : Prop :=
  entry.ctLen ≠ 0 ∧ entry.ctLen.toNat ≤ maxPlainLength + 1

theorem returns_readRecordDims {unread : Bytes} (admissible : Admissible entry)
    (received : server.inbox = encodeDims entry ++ unread) : Returns readRecordDims server := by
  have sameLength : UInt32.ofNat (BigEndian.toNat ((encodeDims entry).drop 8)) = entry.ctLen :=
    congrArg RecordDims.ctLen (decode_encodeDims entry)
  rw [readRecordDims, ← length_encodeDims entry]
  refine (returns_readExact (by simp [received])).bind ((ensures_readBytes received).mono ?_)
  rintro _ _ ⟨rfl, rfl⟩
  refine Returns.require_bind ?_ Returns.pure
  rw [sameLength]
  exact admissible

/-- The verifier reads back the records that the prover has written. -/
theorem ensures_readRecords {records : List RecordDims} {unread : Bytes} (indices : List ℕ)
    (oneEach : indices.length = records.length)
    (received : server.inbox = records.flatMap encodeDims ++ unread) :
    Ensures (Handler.collect (fun _ => readRecordDims) indices)
      (fun values after => values = records ∧ after = { server with inbox := unread }) server := by
  induction records generalizing server indices with
  | nil =>
      cases List.length_eq_zero_iff.mp oneEach
      apply Ensures.pure
      rw [← show server.inbox = unread from received]
      exact ⟨rfl, rfl⟩
  | cons entry records ih =>
      cases indices with
      | nil => cases oneEach
      | cons index indices =>
          rw [List.flatMap_cons, List.append_assoc] at received
          refine Ensures.bind ((ensures_readRecordDims received).mono ?_)
          rintro _ _ ⟨rfl, rfl⟩
          refine Ensures.bind ((ih indices (Nat.succ.inj oneEach) rfl).mono ?_)
          rintro _ _ ⟨rfl, rfl⟩
          exact Ensures.pure ⟨rfl, rfl⟩

end Decoding

section Serving

/-- The batches of a log that were run through the keystream circuit, the oldest first. -/
def servedBatches (server : Server) : List (List Slot) :=
  (server.session.log.filterMap fun
    | .keystreamBatch slots => some slots
    | _ => none).reverse

instance : IoBlind (Same servedBatches) where
  io _ _ _ _ _ _ _ _ := rfl

def recordSlots (seq : UInt64) (nblocks batch : ℕ) : List Slot :=
  (List.range 16).map fun j =>
    ⟨seq, slotCounter nblocks (batch * 16 + j), decide (nblocks ≤ batch * 16 + j)⟩

theorem keystreamSlot_singleton (nonempty : blocksOf entry.ctLen.toNat ≠ 0) (idx : ℕ) :
    keystreamSlot [entry] (blocksOf entry.ctLen.toNat) idx =
      some ⟨entry.seq, slotCounter (blocksOf entry.ctLen.toNat) idx,
        decide (blocksOf entry.ctLen.toNat ≤ idx)⟩ := by
  rw [keystreamSlot, slotCounter]
  split_ifs with real
  · rw [resolve_singleton real, decide_eq_false (by omega)]
    rfl
  · rw [resolve_singleton (by omega), decide_eq_true (by omega)]
    rfl

theorem mapM_keystreamSlot (nonempty : blocksOf entry.ctLen.toNat ≠ 0) (batch : ℕ) :
    ((List.range 16).mapM fun j =>
      keystreamSlot [entry] (blocksOf entry.ctLen.toNat) (batch * 16 + j)) =
        some (recordSlots entry.seq (blocksOf entry.ctLen.toNat) batch) := by
  simp only [keystreamSlot_singleton nonempty]
  exact List.mapM_pure

theorem appends_record (slots : List Slot) :
    Appends servedBatches [slots] (record (.keystreamBatch slots)) server := by
  apply Appends.modify
  simp [servedBatches]

theorem appends_keystreamBatch (nonempty : blocksOf entry.ctLen.toNat ≠ 0) (batch : ℕ) :
    Appends servedBatches [recordSlots entry.seq (blocksOf entry.ctLen.toNat) batch]
      (keystreamBatch env [entry] (blocksOf entry.ctLen.toNat) batch) server := by
  refine Appends.silent_bind keeps_libraryRequest fun _ _ _ => Appends.require_bind fun _ => ?_
  refine Appends.ofOption_bind fun _ resolved => ?_
  rw [mapM_keystreamSlot nonempty] at resolved
  cases resolved
  refine Appends.get_bind (Appends.bind_silent (appends_record _) fun _ => ?_)
  exact keeps_bind keeps_tick fun _ => keeps_require _

/-- What the verifier feeds for a record. -/
def slotBatches (entry : RecordDims) : List (List Slot) :=
  (List.range (batchesOf (blocksOf entry.ctLen.toNat))).map
    (recordSlots entry.seq (blocksOf entry.ctLen.toNat))

theorem appends_deriveKeystreamBlocks (nonempty : blocksOf entry.ctLen.toNat ≠ 0)
    (received : server.inbox = BigEndian.ofNat 4 1 ++ ([entry].flatMap encodeDims ++ [])) :
    Appends servedBatches (slotBatches entry) (deriveKeystreamBlocks env) server := by
  refine Appends.silent_bind (keeps_requireCircuit _) fun _ _ found => ?_
  cases ensures_requireCircuit _ _ _ found
  refine Appends.silent_bind keeps_readU32 fun nrec _ read => ?_
  rcases ensures_readU32 (by decide) received _ _ read with ⟨one, rfl⟩
  refine Appends.require_bind fun _ => ?_
  refine Appends.silent_bind (keeps_collect (fun _ => keeps_readRecordDims) _) fun records _ decoded => ?_
  rcases ensures_readRecords _ (by simp [one]) rfl _ _ decoded with ⟨rfl, rfl⟩
  refine Appends.silent_bind (keeps_modify fun _ => rfl) fun _ _ _ => ?_
  refine Appends.get_bind (Appends.require_bind fun _ => ?_)
  simp only [totalBlocks, List.map_cons, List.map_nil, List.sum_cons, List.sum_nil, Nat.add_zero]
  apply Appends.forEach fun _ => True
  · intro batch server _
    exact ⟨appends_keystreamBatch nonempty batch, fun _ _ _ => trivial⟩
  · trivial

theorem appends_serveMessage (nonempty : blocksOf entry.ctLen.toNat ≠ 0)
    (received : server.inbox = Prover.ksDeriveMessage [entry]) :
    Appends servedBatches (slotBatches entry) (serveMessage env) server := by
  refine Appends.silent_bind keeps_readSingleHeader fun _ _ read => ?_
  rcases ensures_readHeader received _ _ read with ⟨rfl, rfl⟩
  refine Appends.silent_bind (keeps_modify fun _ => rfl) fun _ _ recorded => ?_
  cases recorded
  apply appends_deriveKeystreamBlocks nonempty
  simp [encodeDims]

theorem appends_serveMessage_nil (nothing : server.inbox = []) (slots : List (List Slot)) :
    Appends servedBatches slots (serveMessage env) server := by
  refine Appends.silent_bind keeps_readSingleHeader fun _ _ read => ?_
  have shorter := ensures_readSingleHeader _ _ read
  rw [nothing] at shorter
  cases shorter

end Serving

section Cooperative

/-- Every preprocessing and every circuit for the keystream succeeds. -/
def DerivesKeystream (env : Environment) : Prop :=
  ∀ now, env.exits now = false ∧ env.preproc now .ksBlock = true ∧
    ∀ input, env.ksBatch now input = true

theorem returns_keystreamBatch (derives : DerivesKeystream env)
    (nonempty : blocksOf entry.ctLen.toNat ≠ 0) (batch : ℕ) :
    Returns (keystreamBatch env [entry] (blocksOf entry.ctLen.toNat) batch) server := by
  refine (returns_libraryRequest fun now => (derives now).1).bind fun now _ _ => ?_
  refine Returns.require_bind (derives now).2.1 ?_
  refine Returns.ofOption_bind (mapM_keystreamSlot nonempty batch) ?_
  refine Returns.get_bind (Returns.modify_bind ?_)
  refine returns_tick.bind fun now _ _ => ?_
  exact Returns.require ((derives now).2.2 _)

theorem returns_deriveKeystreamBlocks (derives : DerivesKeystream env)
    (admissible : Admissible entry) (built : server.circuits .ksBlock = true)
    (verified : entry.seq ∈ server.session.verifiedSeqs)
    (received : server.inbox = BigEndian.ofNat 4 1 ++ ([entry].flatMap encodeDims ++ [])) :
    Returns (deriveKeystreamBlocks env) server := by
  have nonempty : blocksOf entry.ctLen.toNat ≠ 0 := by
    have positive : entry.ctLen.toNat ≠ 0 := fun zero => admissible.1 (UInt32.toNat_inj.mp zero)
    rw [blocksOf]
    omega
  have found : Returns (requireCircuit .ksBlock) server := Returns.get_bind (Returns.require built)
  refine found.bind ((ensures_requireCircuit _).mono ?_)
  rintro _ _ rfl
  refine Returns.bind ?_ ((ensures_readU32 (by decide) received).mono ?_)
  · exact (returns_readExact (by simp [received])).bind fun _ _ _ => Returns.pure
  · rintro nrec _ ⟨one, rfl⟩
    have nonzero : nrec ≠ 0 := by
      rintro rfl
      cases one
    refine Returns.require_bind ⟨nonzero, by simp [one, numMasks]⟩ ?_
    rw [one]
    refine Returns.bind ?_ ((ensures_readRecords _ rfl rfl).mono ?_)
    · have encoded : [entry].flatMap encodeDims ++ [] = encodeDims entry ++ [] := by
        rw [List.flatMap_singleton]
      exact (returns_readRecordDims admissible encoded).bind fun _ _ _ => Returns.pure
    · rintro _ _ ⟨rfl, rfl⟩
      refine Returns.modify_bind (Returns.get_bind (Returns.require_bind ?_ ?_))
      · simpa using verified
      · simp only [totalBlocks, List.map_cons, List.map_nil, List.sum_cons, List.sum_nil,
          Nat.add_zero]
        exact Returns.forEach (fun batch _ => returns_keystreamBatch derives nonempty batch) _

theorem returns_serveMessage_ksDerive (derives : DerivesKeystream env)
    (admissible : Admissible entry) (built : server.circuits .ksBlock = true)
    (verified : entry.seq ∈ server.session.verifiedSeqs)
    (received : server.inbox = Prover.ksDeriveMessage [entry]) :
    Returns (serveMessage env) server := by
  apply returns_serveMessage rfl received
  refine returns_deriveKeystreamBlocks derives admissible ?_ ?_ ?_
  · exact built
  · exact verified
  · simp [encodeDims]

end Cooperative

end Server

section Verified

/-- The verifier has accepted the tag of a record, and still counts it as verified. -/
structure TagVerified (server : Server) (captured : Prover.SurfRecord) : Prop where
  known : captured.seq ∈ server.session.verifiedSeqs
  accepted : ∃ env earlier, (Server.verifyGcmTag env earlier).2.session.log =
    .tagPassed captured.seq captured.ciphertext :: .verifyRequest captured.seq ::
      earlier.session.log

/-- A record is submitted, or one of an admissible length passes its check. -/
def PassesTag (log after : List Event) : Prop :=
  (∃ seq, after = .verifyRequest seq :: log) ∨
    ∃ seq ciphertext, ciphertext.length ≠ 0 ∧ ciphertext.length ≤ maxPlainLength + 1 ∧
      after = .tagPassed seq ciphertext :: log

open Server in
theorem Server.traces_verifyGcmTag {env : Environment} {server : Server} :
    Traces (fun server => server.session.log) PassesTag (Server.verifyGcmTag env) server := by
  refine Traces.get_bind (Traces.require_bind fun _ => ?_)
  refine Traces.silent_bind keeps_readU64 fun _ _ _ => ?_
  refine Traces.silent_bind keeps_readU16 fun _ _ _ => ?_
  refine Traces.require_bind fun _ => ?_
  refine Traces.silent_bind (keeps_readExact _) fun _ _ _ => ?_
  refine Traces.silent_bind keeps_readU32 fun ctLen _ _ => ?_
  refine Traces.require_bind fun admissible => ?_
  refine Traces.bind (Silent.traces (keeps_readExact _)) fun ciphertext _ read => ?_
  rcases ensures_readExact _ _ _ read with ⟨available, rfl, rfl⟩
  refine Traces.silent_bind (keeps_readExact _) fun _ _ _ => ?_
  refine Traces.ofOption_bind fun _ _ => ?_
  refine Traces.bind (Relation.ReflTransGen.single (.inl ⟨_, rfl⟩)) fun _ _ _ => ?_
  refine Traces.silent_bind (keeps_requireCircuit _) fun _ _ _ => ?_
  refine Traces.silent_bind keeps_tick fun _ _ _ => ?_
  refine Traces.ofOption_bind fun _ _ => Traces.require_bind fun _ => ?_
  refine Traces.ite (fun _ => ?_) fun _ => ?_
  · exact Traces.ite (fun _ => Silent.traces (keeps_write _)) fun _ => Silent.traces keeps_fail
  · refine Traces.bind (Relation.ReflTransGen.single (.inr ⟨_, _, ?_, ?_, rfl⟩)) fun _ _ _ => ?_
    · rw [List.length_take, Nat.min_eq_left available]
      exact fun zero => admissible.1 (UInt32.toNat_inj.mp zero)
    · rw [List.length_take, Nat.min_eq_left available]
      exact admissible.2
    · exact Traces.ite (fun _ => Silent.traces (keeps_write _))
        fun _ => Silent.traces (keeps_pure _)

theorem TagVerified.length_bounds {server : Server} {captured : Prover.SurfRecord}
    (verified : TagVerified server captured) :
    captured.ciphertext.length ≠ 0 ∧ captured.ciphertext.length ≤ maxPlainLength + 1 := by
  rcases verified.accepted with ⟨env, earlier, passed⟩
  have traces : Traces (fun server : Server => server.session.log) PassesTag
      (Server.verifyGcmTag env) earlier := Server.traces_verifyGcmTag
  rw [Traces, passed] at traces
  rcases Relation.ReflTransGen.cases_tail traces with
    same | ⟨log, _, ⟨seq, submitted⟩ | ⟨seq, ciphertext, positive, admissible, pushed⟩⟩
  · have lengths := congrArg List.length same
    simp at lengths
    omega
  · cases submitted
  · cases pushed
    exact ⟨positive, admissible⟩

end Verified

/--
One call of `derive_keystream` on a captured record whose tag is verified, with the
verifier that is to serve its message. Both parties have the IV of the server from the
traffic keys.
-/
structure KeystreamCall where
  proverEnv : Prover.KeystreamEnvironment
  verifierEnv : Environment
  ssl : Prover.MaskedSsl
  server : Server
  recordIndex : ℕ
  captured : Prover.SurfRecord
  isCaptured : ssl.surfRecords[recordIndex]? = some captured
  verified : TagVerified server captured
  sameIv : server.session.serverIv = Prover.staticIv ssl.serverIv

namespace KeystreamCall

section Statement

variable (call : KeystreamCall)

def sslAfter : Prover.MaskedSsl :=
  (Prover.deriveKeystream call.proverEnv call.recordIndex call.ssl).2

/-- The verifier when it has received what the prover writes in the call. -/
def receiving : Server :=
  { call.server with inbox := (call.sslAfter.sent.drop call.ssl.sent.length).flatten }

def serverAfter : Server := (Server.serveMessage call.verifierEnv call.receiving).2

/-- The counter blocks that the prover feeds, batch by batch. -/
def proverFed : List (List Block) :=
  (call.sslAfter.ksInputs.drop call.ssl.ksInputs.length).map fun input => List.ofFn input.ctr

/-- The counter blocks that the verifier feeds, batch by batch. -/
def verifierFed : List (List Block) :=
  (call.serverAfter.servedBatches.drop call.server.servedBatches.length).map fun slots =>
    slots.map fun slot => ctrBlock call.server.session.serverIv slot.seq slot.counter

/-- The counter blocks of the record. -/
def batches : List (List Block) :=
  counterBatches call.server.session.serverIv call.captured.seq call.captured.ciphertext.length

/-- Both parties have their circuits, and nothing that they ask for fails. -/
structure Cooperates : Prop where
  prover : call.proverEnv.Cooperates
  proverBuilt : call.ssl.verifier = true ∧ call.ssl.ksBlockCircuit = true
  verifier : Server.DerivesKeystream call.verifierEnv
  verifierBuilt : call.server.circuits .ksBlock = true

/--
Each party feeds the batches of the record in their order, and has fed all of them when it
returns. They do return unless something fails.
-/
structure LockStep : Prop where
  prover : call.proverFed <+: call.batches
  verifier : call.verifierFed <+: call.batches
  proverWhole : Returns (Prover.deriveKeystream call.proverEnv call.recordIndex) call.ssl →
    call.proverFed = call.batches
  verifierWhole : Returns (Server.serveMessage call.verifierEnv) call.receiving →
    call.verifierFed = call.batches
  progress : call.Cooperates →
    Returns (Prover.deriveKeystream call.proverEnv call.recordIndex) call.ssl ∧
      Returns (Server.serveMessage call.verifierEnv) call.receiving

end Statement

variable (call : KeystreamCall)

theorem toNat_ctLen : call.captured.dims.ctLen.toNat = call.captured.ciphertext.length := by
  have bounds := call.verified.length_bounds
  rw [maxPlainLength] at bounds
  rw [Prover.SurfRecord.dims, UInt32.toNat_ofNat']
  omega

theorem fits : blocksOf call.captured.ciphertext.length ≤ numMasks := by
  have bounds := call.verified.length_bounds
  rw [maxPlainLength] at bounds
  rw [blocksOf, numMasks]
  omega

theorem nonempty : blocksOf call.captured.dims.ctLen.toNat ≠ 0 := by
  have bounds := call.verified.length_bounds
  rw [toNat_ctLen, blocksOf]
  omega

theorem map_recordInputs : (Prover.recordInputs call.ssl call.captured.dims).map
    (fun input => List.ofFn input.ctr) = call.batches := by
  rw [Prover.recordInputs, batches, counterBatches, toNat_ctLen, List.map_map, call.sameIv]
  rfl

theorem map_slotBatches : (Server.slotBatches call.captured.dims).map (fun slots =>
    slots.map fun slot => ctrBlock call.server.session.serverIv slot.seq slot.counter) =
      call.batches := by
  rw [Server.slotBatches, batches, counterBatches, toNat_ctLen, List.map_map]
  apply List.map_congr_left
  intro batch _
  rw [Function.comp_apply, Server.recordSlots, List.map_map, List.ofFn_eq_map,
    ← List.map_coe_finRange_eq_range, List.map_map]
  rfl

theorem appends_fed : Appends Prover.MaskedSsl.ksInputs
    (Prover.recordInputs call.ssl call.captured.dims)
    (Prover.deriveKeystream call.proverEnv call.recordIndex) call.ssl :=
  Prover.appends_ksInputs call.isCaptured

theorem appends_written : Appends (fun ssl : Prover.MaskedSsl => ssl.sent)
    [Prover.ksDeriveMessage [call.captured.dims]]
    (Prover.deriveKeystream call.proverEnv call.recordIndex) call.ssl :=
  Prover.appends_sent call.isCaptured

theorem inbox_receiving : call.receiving.inbox = [] ∨
    call.receiving.inbox = Prover.ksDeriveMessage [call.captured.dims] := by
  have written := call.appends_written.part.drop call.ssl.sent.length
  rw [List.drop_left] at written
  change List.flatten (List.drop _ (Prover.deriveKeystream _ _ _).2.sent) = _ ∨
    List.flatten (List.drop _ (Prover.deriveKeystream _ _ _).2.sent) = _
  rcases List.prefix_cons_iff.mp written with nothing | ⟨later, message, nothing⟩
  · rw [nothing]
    exact Or.inl rfl
  · cases List.prefix_nil.mp nothing
    rw [message]
    exact Or.inr (List.append_nil _)

theorem inbox_of_returned
    (returns : Returns (Prover.deriveKeystream call.proverEnv call.recordIndex) call.ssl) :
    call.receiving.inbox = Prover.ksDeriveMessage [call.captured.dims] := by
  rcases returns with ⟨_, after, ended⟩
  have written := call.appends_written.whole _ _ ended
  rw [receiving, sslAfter, ended]
  simp only [written, List.drop_left, List.flatten_singleton]

theorem appends_served : Appends Server.servedBatches (Server.slotBatches call.captured.dims)
    (Server.serveMessage call.verifierEnv) call.receiving := by
  rcases call.inbox_receiving with nothing | message
  · exact Server.appends_serveMessage_nil nothing _
  · exact Server.appends_serveMessage call.nonempty message

theorem admissible : Server.Admissible call.captured.dims := by
  have bounds := call.verified.length_bounds
  refine ⟨?_, ?_⟩
  · intro zero
    apply bounds.1
    rw [← call.toNat_ctLen, zero]
    rfl
  · rw [toNat_ctLen]
    exact bounds.2

theorem returns_of_cooperates (cooperates : call.Cooperates) :
    Returns (Prover.deriveKeystream call.proverEnv call.recordIndex) call.ssl ∧
      Returns (Server.serveMessage call.verifierEnv) call.receiving := by
  have fits := call.fits
  rw [← toNat_ctLen] at fits
  have prover : Returns (Prover.deriveKeystream call.proverEnv call.recordIndex) call.ssl :=
    Prover.returns_deriveKeystream cooperates.prover call.isCaptured call.nonempty fits
      cooperates.proverBuilt
  refine ⟨prover, ?_⟩
  apply Server.returns_serveMessage_ksDerive cooperates.verifier call.admissible
  · exact cooperates.verifierBuilt
  · exact call.verified.known
  · exact call.inbox_of_returned prover

theorem lockStep : call.LockStep := by
  refine ⟨?_, ?_, ?_, ?_, call.returns_of_cooperates⟩
  · have part := call.appends_fed.part.drop call.ssl.ksInputs.length
    rw [List.drop_left] at part
    rw [← call.map_recordInputs]
    exact part.map _
  · have part := call.appends_served.part.drop call.receiving.servedBatches.length
    rw [List.drop_left] at part
    rw [← call.map_slotBatches]
    exact part.map _
  · rintro ⟨_, after, ended⟩
    rw [proverFed, sslAfter, ended, call.appends_fed.whole _ _ ended, List.drop_left,
      call.map_recordInputs]
  · rintro ⟨_, after, ended⟩
    have whole := call.appends_served.whole _ _ ended
    have same : call.receiving.servedBatches = call.server.servedBatches := rfl
    rw [same] at whole
    rw [verifierFed, serverAfter, ended, whole, List.drop_left, call.map_slotBatches]

theorem nodup_batches (iv : Iv) (calls : List KeystreamCall)
    (oneIv : ∀ call ∈ calls, call.server.session.serverIv = iv)
    (distinct : (calls.map fun call => call.captured.seq).Nodup) :
    (calls.flatMap fun call => call.batches.flatten).Nodup := by
  rw [List.nodup_flatMap]
  refine ⟨fun call _ => nodup_counterBatches call.fits, ?_⟩
  apply (List.pairwise_map.mp distinct).imp_of_mem
  intro call other inCalls otherInCalls differ
  rw [Function.onFun, batches, batches, oneIv call inCalls, oneIv other otherInCalls]
  exact disjoint_counterBatches differ

/--
Over any sequence of calls under one traffic key, on records with different sequence
numbers, the parties feed the same counter blocks, no block is fed twice, and none has a
counter that GCM uses elsewhere.
-/
theorem calls_inLockStep (iv : Iv) (calls : List KeystreamCall)
    (oneIv : ∀ call ∈ calls, call.server.session.serverIv = iv)
    (distinct : (calls.map fun call => call.captured.seq).Nodup) :
    (∀ call ∈ calls, call.LockStep) ∧
      (calls.flatMap fun call => call.batches.flatten).Nodup ∧
        ∀ call ∈ calls, ∀ block ∈ call.batches.flatten, counterOf block ≠ 0 ∧ counterOf block ≠ 1 := by
  refine ⟨fun call _ => call.lockStep, nodup_batches iv calls oneIv distinct, ?_⟩
  intro call _ block fed
  have large := two_le_counterOf call.fits fed
  omega

section Sample

def sampleRecord (seq : UInt64) (length : ℕ) : Prover.SurfRecord where
  ciphertext := (List.range length).map UInt8.ofNat
  tag := fun _ => 0
  seq := seq

/-- Two records of two blocks and one block. -/
def sampleRecords : List Prover.SurfRecord := [sampleRecord 0 20, sampleRecord 1 3]

def sampleSsl : Prover.MaskedSsl :=
  { Prover.Ssl.initial .masked with
    serverIv := fun i => UInt8.ofNat (200 + i.val)
    surfRecords := sampleRecords
    ksBlockCircuit := true
    maskSeed := fun _ => 1
    maskSeedKey := fun _ => 2
    keystream := []
    nextMaskIndex := 0
    ksInputs := [] }

def sampleServer (verifiedSeqs : List UInt64) (inbox : Bytes) : Server :=
  { Server.initial .masked with
    session := { (Server.initial .masked).session with
      serverIv := Prover.staticIv sampleSsl.serverIv
      verifiedSeqs }
    circuits := fun _ => true
    inbox }

def sampleEnv : Prover.KeystreamEnvironment :=
  { Prover.Environment.cooperative with
    preproc := fun _ => true
    ksBatch := fun _ input => some { maskedKs := input.ctr, ok := true } }

theorem sample_verified (captured : Prover.SurfRecord) (member : captured ∈ sampleRecords) :
    TagVerified (sampleServer [0, 1] []) captured := by
  rw [sampleRecords, List.mem_pair] at member
  rcases member with rfl | rfl
  · refine ⟨by decide, Environment.cooperative [] 0,
      sampleServer [] (Prover.gcmVerifyMessage (sampleRecord 0 20)).tail, ?_⟩
    decide +kernel
  · refine ⟨by decide, Environment.cooperative [] 0,
      sampleServer [0] (Prover.gcmVerifyMessage (sampleRecord 1 3)).tail, ?_⟩
    decide +kernel

def sampleCall (recordIndex : Fin 2) : KeystreamCall where
  proverEnv := sampleEnv
  verifierEnv := Environment.cooperative [] 0
  ssl := sampleSsl
  server := sampleServer [0, 1] []
  recordIndex := recordIndex
  captured := sampleRecords.get recordIndex
  isCaptured := List.getElem?_eq_getElem recordIndex.isLt
  verified := sample_verified _ (List.get_mem _ _)
  sameIv := rfl

theorem sampleCalls_inLockStep :
    (([sampleCall 1, sampleCall 0].map fun call => call.captured.seq).Nodup ∧
      ∀ call ∈ [sampleCall 1, sampleCall 0], call.Cooperates) ∧
    (∀ call ∈ [sampleCall 1, sampleCall 0], call.LockStep) ∧
      ([sampleCall 1, sampleCall 0].flatMap fun call => call.batches.flatten).Nodup ∧
        ∀ call ∈ [sampleCall 1, sampleCall 0], ∀ block ∈ call.batches.flatten,
          counterOf block ≠ 0 ∧ counterOf block ≠ 1 := by
  have oneIv : ∀ call ∈ [sampleCall 1, sampleCall 0],
      call.server.session.serverIv = Prover.staticIv sampleSsl.serverIv := by
    simp only [List.mem_pair]
    rintro call (rfl | rfl)
    · rfl
    · rfl
  have distinct : ([sampleCall 1, sampleCall 0].map fun call => call.captured.seq).Nodup := by
    decide
  refine ⟨⟨distinct, ?_⟩, calls_inLockStep _ _ oneIv distinct⟩
  have cooperates : ∀ recordIndex, (sampleCall recordIndex).Cooperates := fun _ =>
    { prover := ⟨fun _ => rfl, fun _ => rfl, fun _ _ => ⟨_, rfl, rfl⟩, fun _ _ => ⟨_, rfl⟩⟩
      proverBuilt := ⟨rfl, rfl⟩
      verifier := fun _ => ⟨rfl, rfl, fun _ => rfl⟩
      verifierBuilt := rfl }
  simp only [List.mem_pair]
  rintro call (rfl | rfl)
  · exact cooperates 1
  · exact cooperates 0

end Sample

end KeystreamCall

end PracticalCrypto.Surf
