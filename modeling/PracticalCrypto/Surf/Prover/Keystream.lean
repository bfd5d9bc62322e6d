import PracticalCrypto.Surf.Circuit.Batch
import PracticalCrypto.Surf.Prover.TlsRecord

/-!
# Keystream for captured records

In the masked mode the prover opens a captured record with keystream that it derives
together with the verifier. This file embeds `derive_keystream` of
`surf-impl/src/ssl/ThreePartyHandshake.cpp`, with the members of `SSL` that only this
mode uses, and says which counter blocks it feeds into the keystream circuit.
-/

namespace PracticalCrypto.Surf

open BlockMap Handler

namespace Prover

section Model

/-- The environment of a prover that has the keystream circuit. -/
structure KeystreamEnvironment extends Environment where
  /-- Whether there is a preprocessed batch, if need be after a preprocessing. -/
  preproc : ℕ → Bool
  /-- `run_ks_batch_circuit`. -/
  ksBatch : ℕ → KsBatchCircuitIn 16 → Option (KsBatchCircuitOut 16)

/--
The members of `SSL` that the masked mode adds, with the keystream as blocks, and
the history of the inputs of the keystream circuit.
-/
structure MaskedSsl extends Ssl where
  ksBlockCircuit : Bool
  maskSeed : Block
  maskSeedKey : Block
  keystream : List Block
  nextMaskIndex : ℕ
  ksInputs : List (KsBatchCircuitIn 16)

def onSsl {α : Type} (prog : Handler Ssl α) : Handler MaskedSsl α :=
  Handler.focus MaskedSsl.toSsl (fun ssl masked => { masked with toSsl := ssl }) prog

variable (env : KeystreamEnvironment)

/-- `KS_DERIVE || u32 nrec || nrec x (u64 seq || u32 ct_len)`. -/
def ksDeriveMessage (records : List RecordDims) : Bytes :=
  MessageHeader.toByte .ksDerive ::
    (BigEndian.ofNat 4 records.length ++ records.flatMap fun entry =>
      BigEndian.ofNat 8 entry.seq.toNat ++ BigEndian.ofNat 4 entry.ctLen.toNat)

def slotBlock (iv : Iv) (records : List RecordDims) (nblocks idx : ℕ) : Option Block :=
  if idx < nblocks then do
    let (seq, counter) ← resolve records idx
    some (ctrBlock iv seq counter)
  else do
    let (seq, _) ← resolve records (nblocks - 1)
    -- the counter of a real block never has the top bit set
    some (ctrBlock iv seq (0x80000000 ||| UInt32.ofNat idx))

def ksBatchInput (ssl : MaskedSsl) (blocks : List Block) : KsBatchCircuitIn 16 where
  key := ssl.serverKeyShare
  ctr := fun j => blocks.getD j fun _ => 0
  s := ssl.maskSeed
  r := ssl.maskSeedKey
  d := fun _ => 0

/-- The keystream block of one slot: the mask is stripped from the output of the circuit. -/
def storeKeystream (input : KsBatchCircuitIn 16) (out : KsBatchCircuitOut 16)
    (nblocks batch : ℕ) (j : Fin 16) : Handler MaskedSsl Unit :=
  if batch * 16 + j < nblocks then do
    let ssl ← Handler.get
    let b ← Handler.ofOption (env.aes ssl.maskSeed (input.ctr j))
    Handler.modify fun ssl =>
      { ssl with
        keystream := ssl.keystream.set (batch * 16 + j) fun k => out.maskedKs j k ^^^ b k }
  else pure ()

def keystreamBatch (records : List RecordDims) (nblocks batch : ℕ) : Handler MaskedSsl Unit := do
  let preprocAt ← onSsl tick
  Handler.require (env.preproc preprocAt = true)
  let ssl ← Handler.get
  let blocks ← Handler.ofOption ((List.range 16).mapM fun j =>
    slotBlock (staticIv ssl.serverIv) records nblocks (batch * 16 + j))
  let input := ksBatchInput ssl blocks
  Handler.modify fun ssl => { ssl with ksInputs := ssl.ksInputs ++ [input] }
  let now ← onSsl tick
  let out ← Handler.ofOption (env.ksBatch now input)
  Handler.require (out.ok = true)
  Handler.forEach (storeKeystream env input out nblocks batch) (List.finRange 16)

def deriveKeystream (recordIndex : ℕ) : Handler MaskedSsl Unit := do
  let ssl ← Handler.get
  Handler.require (ssl.verifier = true ∧ ssl.ksBlockCircuit = true)
  let captured ← Handler.ofOption ssl.surfRecords[recordIndex]?
  let records := [⟨captured.seq, UInt32.ofNat captured.ciphertext.length⟩]
  let nblocks := totalBlocks records
  Handler.require (nblocks ≠ 0 ∧ nblocks ≤ numMasks)
  onSsl (sslWrite env.toEnvironment (ksDeriveMessage records))
  Handler.modify fun ssl =>
    { ssl with
      keystream :=
        if ssl.keystream.length = numMasks then ssl.keystream
        else List.replicate numMasks fun _ => 0 }
  Handler.forEach (keystreamBatch env records nblocks) (List.range (batchesOf nblocks))
  Handler.modify fun ssl => { ssl with nextMaskIndex := nblocks }

end Model

end Prover

section Counters

/-- The counter of a slot of a record: a padding slot has the top bit set. -/
def slotCounter (nblocks idx : ℕ) : UInt32 :=
  if idx < nblocks then UInt32.ofNat idx + 2 else 0x80000000 ||| UInt32.ofNat idx

/-- The counter blocks of the slots of a record, batch by batch. -/
def counterBatches (iv : Iv) (seq : UInt64) (ctLen : ℕ) : List (List Block) :=
  (List.range (batchesOf (blocksOf ctLen))).map fun batch =>
    List.ofFn fun j : Fin 16 => ctrBlock iv seq (slotCounter (blocksOf ctLen) (batch * 16 + j))

/-- The last four bytes of a counter block. -/
def counterOf (block : Block) : ℕ :=
  BigEndian.toNat (List.ofFn fun i : Fin 4 => block (Fin.natAdd 12 i))

theorem counterOf_ctrBlock (iv : Iv) (seq : UInt64) (counter : UInt32) :
    counterOf (ctrBlock iv seq counter) = counter.toNat := by
  have bounded := counter.toNat_lt
  have byteAt : ∀ i : Fin 16, 12 ≤ i.val → (ctrBlock iv seq counter i).toNat =
      counter.toNat / 2 ^ (8 * (15 - i.val)) % 256 := by
    intro i inCounter
    rw [ctrBlock, dif_neg (by omega), toNat_counter_byte _ _ (by omega)]
  have lastBytes : List.ofFn (fun i : Fin 4 => ctrBlock iv seq counter (Fin.natAdd 12 i)) =
      [ctrBlock iv seq counter 12, ctrBlock iv seq counter 13, ctrBlock iv seq counter 14,
        ctrBlock iv seq counter 15] := rfl
  simp only [counterOf, lastBytes, BigEndian.toNat, List.foldl_cons, List.foldl_nil,
    byteAt 12 (by decide), byteAt 13 (by decide), byteAt 14 (by decide), byteAt 15 (by decide)]
  norm_num
  omega

theorem ctrBlock_injective {iv : Iv} {seq otherSeq : UInt64} {counter other : UInt32}
    (same : ctrBlock iv seq counter = ctrBlock iv otherSeq other) :
    seq = otherSeq ∧ counter = other := by
  have words := congrArg Gcm.ofOctets same
  rw [ofOctets_ctrBlock, ofOctets_ctrBlock] at words
  have high := congrArg (BitVec.extractLsb' 32 96) words
  rw [BitVec.extractLsb'_append_eq_left, BitVec.extractLsb'_append_eq_left, nonce, nonce,
    BitVec.xor_right_inj] at high
  have sameSeq : seq = otherSeq := by
    have bounded := seq.toNat_lt
    have otherBounded := otherSeq.toNat_lt
    have sameNat := congrArg BitVec.toNat high
    rw [BitVec.toNat_ofNat, BitVec.toNat_ofNat] at sameNat
    apply UInt64.toNat_inj.mp
    omega
  subst sameSeq
  exact ⟨rfl, ctrBlock_counter_injective same⟩

theorem toNat_slotCounter {nblocks idx : ℕ} (fits : nblocks ≤ numMasks) (small : idx < 2 ^ 31) :
    (slotCounter nblocks idx).toNat = if idx < nblocks then idx + 2 else 2 ^ 31 + idx := by
  rw [numMasks] at fits
  rw [slotCounter]
  split_ifs with real
  · have start : (2 : UInt32).toNat = 2 := rfl
    rw [UInt32.toNat_add, UInt32.toNat_ofNat', start]
    omega
  · have topBit : (0x80000000 : UInt32).toNat = 2 ^ 31 * 1 := rfl
    rw [UInt32.toNat_or, UInt32.toNat_ofNat', topBit, Nat.mod_eq_of_lt (by omega),
      ← Nat.two_pow_add_eq_or_of_lt small, Nat.mul_one]

variable {iv : Iv} {seq : UInt64} {ctLen : ℕ}

theorem flatten_counterBatches : (counterBatches iv seq ctLen).flatten =
    (List.range (batchesOf (blocksOf ctLen) * 16)).map
      fun idx => ctrBlock iv seq (slotCounter (blocksOf ctLen) idx) := by
  rw [counterBatches, ← List.flatMap_def, ← flatMap_ofFn_range]

theorem batchesOf_small {nblocks : ℕ} (fits : nblocks ≤ numMasks) :
    batchesOf nblocks * 16 < 2 ^ 31 := by
  rw [numMasks] at fits
  rw [batchesOf]
  omega

theorem nodup_counterBatches (fits : blocksOf ctLen ≤ numMasks) :
    (counterBatches iv seq ctLen).flatten.Nodup := by
  rw [flatten_counterBatches, List.nodup_map_iff_inj_on List.nodup_range]
  intro idx inSlots other otherInSlots same
  have small := batchesOf_small fits
  rw [List.mem_range] at inSlots otherInSlots
  have sameCounter := congrArg UInt32.toNat (ctrBlock_injective same).2
  rw [toNat_slotCounter fits (by omega), toNat_slotCounter fits (by omega)] at sameCounter
  rw [numMasks] at fits
  split_ifs at sameCounter
  all_goals omega

theorem two_le_counterOf (fits : blocksOf ctLen ≤ numMasks) {block : Block}
    (fed : block ∈ (counterBatches iv seq ctLen).flatten) : 2 ≤ counterOf block := by
  rw [flatten_counterBatches, List.mem_map] at fed
  rcases fed with ⟨idx, inSlots, rfl⟩
  have small := batchesOf_small fits
  rw [List.mem_range] at inSlots
  rw [counterOf_ctrBlock, toNat_slotCounter fits (by omega)]
  split_ifs
  all_goals omega

/-- Records with different sequence numbers share no counter block. -/
theorem disjoint_counterBatches {otherSeq : UInt64} {otherLen : ℕ} (differ : seq ≠ otherSeq) :
    (counterBatches iv seq ctLen).flatten.Disjoint
      (counterBatches iv otherSeq otherLen).flatten := by
  intro block fed fedByOther
  rw [flatten_counterBatches, List.mem_map] at fed fedByOther
  rcases fed with ⟨idx, _, rfl⟩
  rcases fedByOther with ⟨other, _, same⟩
  exact differ (ctrBlock_injective same).1.symm

theorem resolve_singleton {entry : RecordDims} {idx : ℕ} (inside : idx < blocksOf entry.ctLen.toNat) :
    resolve [entry] idx = some (entry.seq, UInt32.ofNat idx + 2) := by
  rw [resolve, resolveFrom, if_pos (by omega), Nat.sub_zero]

end Counters

namespace Prover

variable {env : KeystreamEnvironment} {ssl : MaskedSsl} {entry : RecordDims}

section Batches

theorem keeps_storeKeystream {rel : MaskedSsl → MaskedSsl → Prop} [IsPreorder MaskedSsl rel]
    (blind : ∀ ssl keystream, rel ssl { ssl with keystream }) (input : KsBatchCircuitIn 16)
    (out : KsBatchCircuitOut 16) (nblocks batch : ℕ) (j : Fin 16) :
    Keeps rel (storeKeystream env input out nblocks batch j) := by
  apply keeps_ite
  · refine keeps_bind keeps_get fun _ => ?_
    refine keeps_bind (keeps_ofOption _) fun _ => ?_
    exact keeps_modify fun ssl => blind ssl _
  · exact keeps_pure ()

theorem keeps_keystreamBatch {rel : MaskedSsl → MaskedSsl → Prop} [IsPreorder MaskedSsl rel]
    (blind : ∀ ssl clock keystream ksInputs, rel ssl { ssl with clock, keystream, ksInputs })
    (records : List RecordDims) (nblocks batch : ℕ) :
    Keeps rel (keystreamBatch env records nblocks batch) := by
  have ticks : Keeps rel (onSsl tick) := fun ssl => blind ssl _ _ _
  refine keeps_bind ticks fun _ => keeps_bind (keeps_require _) fun _ => ?_
  refine keeps_bind keeps_get fun _ => keeps_bind (keeps_ofOption _) fun _ => ?_
  refine keeps_bind (keeps_modify fun ssl => blind ssl _ _ _) fun _ => keeps_bind ticks fun _ => ?_
  refine keeps_bind (keeps_ofOption _) fun out => keeps_bind (keeps_require _) fun _ => ?_
  exact keeps_forEach (keeps_storeKeystream (fun ssl _ => blind ssl _ _ _) _ out nblocks batch) _

/-- What the prover feeds in a batch of a record. -/
def recordInput (ssl : MaskedSsl) (seq : UInt64) (nblocks batch : ℕ) : KsBatchCircuitIn 16 where
  key := ssl.serverKeyShare
  ctr := fun j => ctrBlock (staticIv ssl.serverIv) seq (slotCounter nblocks (batch * 16 + j))
  s := ssl.maskSeed
  r := ssl.maskSeedKey
  d := fun _ => 0

theorem slotBlock_singleton {iv : Iv} (nonempty : blocksOf entry.ctLen.toNat ≠ 0) (idx : ℕ) :
    slotBlock iv [entry] (blocksOf entry.ctLen.toNat) idx =
      some (ctrBlock iv entry.seq (slotCounter (blocksOf entry.ctLen.toNat) idx)) := by
  rw [slotBlock, slotCounter]
  split_ifs with real
  · rw [resolve_singleton real]
    rfl
  · rw [resolve_singleton (by omega)]
    rfl

theorem mapM_slotBlock (iv : Iv) (nonempty : blocksOf entry.ctLen.toNat ≠ 0) (batch : ℕ) :
    ((List.range 16).mapM fun j =>
      slotBlock iv [entry] (blocksOf entry.ctLen.toNat) (batch * 16 + j)) =
        some ((List.range 16).map fun j =>
          ctrBlock iv entry.seq (slotCounter (blocksOf entry.ctLen.toNat) (batch * 16 + j))) := by
  simp only [slotBlock_singleton nonempty]
  exact List.mapM_pure

theorem ksBatchInput_eq (seq : UInt64) (nblocks batch : ℕ) :
    ksBatchInput ssl ((List.range 16).map fun j =>
      ctrBlock (staticIv ssl.serverIv) seq (slotCounter nblocks (batch * 16 + j))) =
        recordInput ssl seq nblocks batch := by
  rw [ksBatchInput, recordInput]
  congr 1
  funext j
  rw [List.getD_eq_getElem _ _ (by simp), List.getElem_map, List.getElem_range]

theorem appends_keystreamBatch (nonempty : blocksOf entry.ctLen.toNat ≠ 0) (batch : ℕ) :
    Appends MaskedSsl.ksInputs [recordInput ssl entry.seq (blocksOf entry.ctLen.toNat) batch]
      (keystreamBatch env [entry] (blocksOf entry.ctLen.toNat) batch) ssl := by
  have ticks : Silent MaskedSsl.ksInputs (onSsl tick) := fun _ => rfl
  refine Appends.silent_bind ticks fun _ ticked ended => ?_
  have sameInput : recordInput ticked = recordInput ssl := by
    cases ended
    rfl
  refine Appends.require_bind fun _ => Appends.get_bind (Appends.ofOption_bind fun _ resolved => ?_)
  rw [mapM_slotBlock _ nonempty] at resolved
  cases resolved
  rw [ksBatchInput_eq, ← sameInput]
  refine Appends.bind_silent (Appends.modify rfl) fun _ => ?_
  refine keeps_bind ticks fun _ => keeps_bind (keeps_ofOption _) fun out => ?_
  refine keeps_bind (keeps_require _) fun _ => ?_
  exact keeps_forEach (keeps_storeKeystream (fun _ _ => rfl) _ out _ batch) _

theorem appends_keystreamBatches {start : MaskedSsl} (nonempty : blocksOf entry.ctLen.toNat ≠ 0)
    (sameInput : recordInput ssl = recordInput start) (batches : List ℕ) :
    Appends MaskedSsl.ksInputs
      (batches.map (recordInput start entry.seq (blocksOf entry.ctLen.toNat)))
      (Handler.forEach (keystreamBatch env [entry] (blocksOf entry.ctLen.toNat)) batches) ssl := by
  apply Appends.forEach fun ssl => recordInput ssl = recordInput start
  · intro batch ssl sameInput
    have silent : Silent recordInput
        (keystreamBatch env [entry] (blocksOf entry.ctLen.toNat) batch) :=
      keeps_keystreamBatch (fun _ _ _ _ => rfl) _ _ _
    rw [← sameInput]
    exact ⟨appends_keystreamBatch nonempty batch, fun _ _ ended => silent.of_returned ended⟩
  · exact sameInput

end Batches

section Call

variable {recordIndex : ℕ} {captured : SurfRecord}

def SurfRecord.dims (captured : SurfRecord) : RecordDims :=
  ⟨captured.seq, UInt32.ofNat captured.ciphertext.length⟩

/-- What the prover feeds for a record. -/
def recordInputs (ssl : MaskedSsl) (entry : RecordDims) : List (KsBatchCircuitIn 16) :=
  (List.range (batchesOf (blocksOf entry.ctLen.toNat))).map
    (recordInput ssl entry.seq (blocksOf entry.ctLen.toNat))

theorem totalBlocks_dims (captured : SurfRecord) :
    totalBlocks [⟨captured.seq, UInt32.ofNat captured.ciphertext.length⟩] =
      blocksOf captured.dims.ctLen.toNat := by
  simp [totalBlocks, SurfRecord.dims]

theorem ensures_onSsl_sslWrite (message : Bytes) :
    Ensures (onSsl (sslWrite env.toEnvironment message))
      (fun _ after =>
        after = { ssl with sent := ssl.sent ++ [message], clock := ssl.clock + 1 }) ssl := by
  apply Ensures.focus
  refine (ensures_sslWrite message).mono ?_
  rintro _ _ rfl
  rfl

theorem appends_onSsl_sslWrite (message : Bytes) :
    Appends (fun ssl : MaskedSsl => ssl.sent) [message]
      (onSsl (sslWrite env.toEnvironment message)) ssl := by
  have writes : Appends Ssl.sent [message] (sslWrite env.toEnvironment message) ssl.toSsl := by
    refine Appends.silent_bind (fun _ => rfl) fun _ _ _ => ?_
    exact Appends.require_bind fun _ => Appends.modify rfl
  exact writes.focus rfl fun _ => rfl

theorem appends_ksInputs (isCaptured : ssl.surfRecords[recordIndex]? = some captured) :
    Appends MaskedSsl.ksInputs (recordInputs ssl captured.dims)
      (deriveKeystream env recordIndex) ssl := by
  refine Appends.get_bind (Appends.require_bind fun _ => Appends.ofOption_bind fun _ isFound => ?_)
  rw [isCaptured] at isFound
  cases isFound
  simp only [totalBlocks_dims]
  refine Appends.require_bind fun accepted => ?_
  refine Appends.silent_bind (fun _ => rfl) fun _ _ wrote => ?_
  cases ensures_onSsl_sslWrite _ _ _ wrote
  refine Appends.silent_bind (keeps_modify fun _ => rfl) fun _ _ initialised => ?_
  cases initialised
  refine Appends.bind_silent (appends_keystreamBatches accepted.1 ?_ _) fun _ => ?_
  · rfl
  · exact keeps_modify fun _ => rfl

theorem appends_sent (isCaptured : ssl.surfRecords[recordIndex]? = some captured) :
    Appends (fun ssl : MaskedSsl => ssl.sent) [ksDeriveMessage [captured.dims]]
      (deriveKeystream env recordIndex) ssl := by
  refine Appends.get_bind (Appends.require_bind fun _ => Appends.ofOption_bind fun _ isFound => ?_)
  rw [isCaptured] at isFound
  cases isFound
  refine Appends.require_bind fun _ => ?_
  refine Appends.bind_silent (appends_onSsl_sslWrite _) fun _ => ?_
  refine keeps_bind (keeps_modify fun _ => rfl) fun _ => ?_
  refine keeps_bind (keeps_forEach (keeps_keystreamBatch (fun _ _ _ _ => rfl) _ _) _) fun _ => ?_
  exact keeps_modify fun _ => rfl

end Call

section Cooperative

/-- Every write, preprocessing and circuit succeeds. -/
structure KeystreamEnvironment.Cooperates (env : KeystreamEnvironment) : Prop where
  writes : ∀ now, env.write now = true
  preprocesses : ∀ now, env.preproc now = true
  derives : ∀ now input, ∃ out, env.ksBatch now input = some out ∧ out.ok = true
  encrypts : ∀ key block, ∃ out, env.aes key block = some out

theorem returns_storeKeystream (cooperates : env.Cooperates) (input : KsBatchCircuitIn 16)
    (out : KsBatchCircuitOut 16) (nblocks batch : ℕ) (j : Fin 16) :
    Returns (storeKeystream env input out nblocks batch j) ssl := by
  rw [storeKeystream]
  split
  · refine Returns.get_bind ?_
    rcases cooperates.encrypts ssl.maskSeed (input.ctr j) with ⟨b, encrypted⟩
    exact Returns.ofOption_bind encrypted Returns.modify
  · exact Returns.pure

theorem returns_keystreamBatch (cooperates : env.Cooperates) {entry : RecordDims}
    (nonempty : blocksOf entry.ctLen.toNat ≠ 0) (batch : ℕ) :
    Returns (keystreamBatch env [entry] (blocksOf entry.ctLen.toNat) batch) ssl := by
  have ticks : ∀ ssl, Returns (onSsl tick) ssl := fun _ => Returns.focus returns_tick
  refine (ticks _).bind fun now _ _ => ?_
  refine Returns.require_bind (cooperates.preprocesses now) ?_
  refine Returns.get_bind (Returns.ofOption_bind (mapM_slotBlock _ nonempty batch) ?_)
  refine Returns.modify_bind ?_
  refine (ticks _).bind fun now _ _ => ?_
  rcases cooperates.derives now _ with ⟨out, derived, agreed⟩
  refine Returns.ofOption_bind derived (Returns.require_bind agreed ?_)
  exact Returns.forEach (fun j _ => returns_storeKeystream cooperates _ _ _ _ j) _

theorem returns_deriveKeystream (cooperates : env.Cooperates)
    (isCaptured : ssl.surfRecords[recordIndex]? = some captured)
    (nonempty : blocksOf captured.dims.ctLen.toNat ≠ 0)
    (fits : blocksOf captured.dims.ctLen.toNat ≤ numMasks)
    (built : ssl.verifier = true ∧ ssl.ksBlockCircuit = true) :
    Returns (deriveKeystream env recordIndex) ssl := by
  refine Returns.get_bind (Returns.require_bind built ?_)
  refine Returns.ofOption_bind isCaptured ?_
  simp only [totalBlocks_dims]
  refine Returns.require_bind ⟨nonempty, fits⟩ ?_
  refine (Returns.focus (returns_sslWrite cooperates.writes _)).bind fun _ _ _ => ?_
  refine Returns.modify_bind ?_
  refine (Returns.forEach (fun batch _ => returns_keystreamBatch cooperates nonempty batch) _).bind
    fun _ _ _ => ?_
  exact Returns.modify

end Cooperative

end Prover

end PracticalCrypto.Surf
