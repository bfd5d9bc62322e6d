import PracticalCrypto.Surf.Prover.State
import PracticalCrypto.Surf.Server.Attestation

/-!
# Joint encryption of a request

This file embeds `ThreePartyHandshake::encrypt_request` of
`surf-impl/src/ssl/ThreePartyHandshake.cpp` and the circuit
`DeriveAESEncBatch` of `2pc/DeriveCircuits.cpp`, and follows one request through
both parties: what the prover writes, what `encrypt_blocks` of the verifier reads
from it, and which counter blocks the two feed into the encryption circuit.

Both parties fill the last batch with slots that repeat the counter of the last
real block. The plaintext of those slots is zero and the ciphertext is public,
so the slots are harmless exactly if there are none.
-/

namespace PracticalCrypto.Surf

open BlockMap Handler

namespace Prover

variable (env : Environment)

section Model

/-- `AES_ENC || u64 seq || u32 pt_len`. -/
def aesEncMessage (seq : UInt64) (ptLen : ℕ) : Bytes :=
  MessageHeader.toByte .aesEnc :: (BigEndian.ofNat 8 seq.toNat ++ BigEndian.ofNat 4 ptLen)

/-- `GCM_TAG || u16 aad_len || aad || u32 ct_len`. -/
def gcmTagMessage (aad : Bytes) (ptLen : ℕ) : Bytes :=
  MessageHeader.toByte .gcmTag ::
    (BigEndian.ofNat 2 aad.length ++ aad ++ BigEndian.ofNat 4 ptLen)

def requestCounters (iv : Block) (seq : UInt64) (nblocks batch : ℕ) : Fin 16 → Block := fun j =>
  ctrBlock (staticIv iv) seq (UInt32.ofNat (tailSource nblocks (batch * 16 + j)) + 2)

def requestBlocks (inner : Bytes) (batch : ℕ) : Fin 16 → Block := fun j i =>
  inner.getD ((batch * 16 + j) * 16 + i) 0

def requestInput (ssl : Ssl) (inner : Bytes) (nblocks batch : ℕ) : AesEncBatchIn where
  key := ssl.clientKeyShare
  ctr := requestCounters ssl.clientIv ssl.writeSequence nblocks batch
  pt := requestBlocks inner batch

def encryptRequestBatch (inner : Bytes) (nblocks batch : ℕ) : Handler Ssl Bytes := do
  let ssl ← Handler.get
  let input := requestInput ssl inner nblocks batch
  Handler.modify fun ssl => { ssl with encInputs := ssl.encInputs ++ [input] }
  let now ← tick
  let out ← Handler.ofOption (env.aesEncBatch now input)
  Handler.require (out.ok = true)
  pure ((List.ofFn out.ct).flatMap List.ofFn)

/-- The plaintext, the inner content type and zeros up to the end of the last batch. -/
def innerPlaintext (plaintext : Bytes) (innerType : UInt8) (nbatches : ℕ) : Bytes :=
  plaintext ++ innerType :: List.replicate (nbatches * 16 * 16 - (plaintext.length + 1)) 0

def encryptRequest (plaintext : Bytes) (innerType : UInt8) : Handler Ssl Bytes := do
  let ssl ← Handler.get
  Handler.require
    (ssl.verifier = true ∧ ssl.aesEncCircuit = true ∧ ssl.gcmTagCircuit = true)
  let ptLen := plaintext.length + 1
  let nblocks := blocksOf ptLen
  let nbatches := batchesOf nblocks
  Handler.require (ptLen ≤ maxPlainLength ∧ nbatches ≤ 4)
  sslWrite env (aesEncMessage ssl.writeSequence ptLen)
  let chunks ← Handler.collect
    (encryptRequestBatch env (innerPlaintext plaintext innerType nbatches) nblocks)
    (List.range nbatches)
  let ct := chunks.flatten.take ptLen
  let aad := recordHeader ptLen
  sslWrite env (gcmTagMessage aad ptLen)
  let tagShare ← Handler.ofOption (ghashShare env.ghash ssl.cgcmShare aad ct)
  let maskAt ← tick
  let mask := env.randomBytes maskAt
  let now ← tick
  let out ← Handler.ofOption (env.gcmTag now
    { keyShare := ssl.clientKeyShare
      iv := ctrBlock (staticIv ssl.clientIv) ssl.writeSequence 1
      tagShare
      maskOrUnused := mask })
  Handler.require (out.cheated = false)
  pure (aad ++ ct ++ List.ofFn fun i => out.tag i ^^^ mask i)

end Model

end Prover

section Circuit

def jointKey (alice bob : AesEncBatchIn) : Block := fun i => alice.key i ^^^ bob.key i

/-- `DeriveAESEncBatch`: the public output, zero unless all counter blocks agree. -/
def deriveAesEncBatch (aes : Block → Block → Block) (alice bob : AesEncBatchIn) :
    AesEncBatchOut where
  ct := fun blk i =>
    if alice.ctr = bob.ctr then aes (jointKey alice bob) (alice.ctr blk) i ^^^ alice.pt blk i
    else 0
  ok := decide (alice.ctr = bob.ctr)

/-- A slot with a zero plaintext publishes its keystream block. -/
theorem deriveAesEncBatch_zero {aes : Block → Block → Block} {alice bob : AesEncBatchIn}
    {blk : Fin 16} (agree : alice.ctr = bob.ctr) (zero : alice.pt blk = fun _ => 0) :
    (deriveAesEncBatch aes alice bob).ct blk = aes (jointKey alice bob) (alice.ctr blk) := by
  funext i
  simp [deriveAesEncBatch, agree, zero]

def slots (inputs : List AesEncBatchIn) : List Block :=
  inputs.flatMap fun input => List.ofFn input.ctr

/--
A slot past the `nblocks` real blocks is published as the keystream that
encrypts a real block.
-/
def ExposesKeystream (aes : Block → Block → Block) (alice bob : List AesEncBatchIn)
    (nblocks : ℕ) : Prop :=
  ∃ (padding real : ℕ) (j k : Fin 16) (a b a' : AesEncBatchIn),
    nblocks ≤ padding * 16 + j ∧ real * 16 + k < nblocks ∧
    alice[padding]? = some a ∧ bob[padding]? = some b ∧ alice[real]? = some a' ∧
    (deriveAesEncBatch aes a b).ok = true ∧
    (deriveAesEncBatch aes a b).ct j = aes (jointKey a b) (a'.ctr k)

end Circuit

namespace Prover

variable {env : Environment} {plaintext : Bytes} {innerType : UInt8} {ssl : Ssl}

/-- The answer that the prover gets for a batch, and the bytes that it takes from it. -/
def Encrypted (env : Environment) (ssl : Ssl) (start : ℕ) (inner : Bytes) (nblocks batch : ℕ)
    (chunk : Bytes) : Prop :=
  ∃ out, env.aesEncBatch (start + batch) (requestInput ssl inner nblocks batch) = some out ∧
    out.ok = true ∧ chunk = (List.ofFn out.ct).flatMap List.ofFn

theorem ensures_encryptRequestBatch (inner : Bytes) (nblocks batch : ℕ) :
    Ensures (encryptRequestBatch env inner nblocks batch)
      (fun chunk after =>
        (∃ out, env.aesEncBatch ssl.clock (requestInput ssl inner nblocks batch) = some out ∧
          out.ok = true ∧ chunk = (List.ofFn out.ct).flatMap List.ofFn) ∧
        after =
          { ssl with
            encInputs := ssl.encInputs ++ [requestInput ssl inner nblocks batch]
            clock := ssl.clock + 1 })
      ssl := by
  refine Ensures.get_bind ?_
  refine Ensures.modify_bind ?_
  refine Ensures.bind (ensures_tick.mono ?_)
  rintro _ _ ⟨rfl, rfl⟩
  refine Ensures.ofOption_bind fun out answered => ?_
  refine Ensures.require_bind fun agreed => ?_
  exact Ensures.pure ⟨⟨out, answered, agreed, rfl⟩, rfl⟩

theorem item_eq_length {n item : ℕ} {done later : List ℕ}
    (split : List.range n = done ++ item :: later) : item = done.length := by
  have here := congrArg (fun items => items[done.length]?) split
  simp only [List.getElem?_append_right (Nat.le_refl _), Nat.sub_self, List.getElem?_cons_zero]
    at here
  obtain ⟨_, same⟩ := List.getElem?_eq_some_iff.mp here
  simpa using same.symm

theorem ensures_encryptRequestBatches (inner : Bytes) (nblocks nbatches : ℕ) :
    Ensures (Handler.collect (encryptRequestBatch env inner nblocks) (List.range nbatches))
      (fun chunks after =>
        List.Forall₂ (Encrypted env ssl ssl.clock inner nblocks) (List.range nbatches) chunks ∧
        after =
          { ssl with
            encInputs := ssl.encInputs ++ (List.range nbatches).map (requestInput ssl inner nblocks)
            clock := ssl.clock + nbatches })
      ssl := by
  -- The invariant speaks about the batches that are done, the rule about those to come.
  let holds (later : List ℕ) (current : Ssl) : Prop := ∃ done, List.range nbatches = done ++ later ∧
    current =
      { ssl with
        encInputs := ssl.encInputs ++ done.map (requestInput ssl inner nblocks)
        clock := ssl.clock + done.length }
  have kept : Ensures (Handler.collect (encryptRequestBatch env inner nblocks) (List.range nbatches))
      (fun chunks after =>
        List.Forall₂ (Encrypted env ssl ssl.clock inner nblocks) (List.range nbatches) chunks ∧ holds [] after)
      ssl := by
    refine Ensures.collect ?_ ⟨[], rfl, by simp⟩
    rintro batch later _ ⟨done, split, rfl⟩
    obtain rfl : batch = done.length := item_eq_length split
    refine (ensures_encryptRequestBatch inner nblocks _).mono ?_
    rintro chunk _ ⟨answered, rfl⟩
    exact ⟨answered, done ++ [done.length], by simp [split],
      by simp [requestInput, Nat.add_assoc]⟩
  refine kept.mono ?_
  rintro chunks _ ⟨answered, done, split, rfl⟩
  rw [List.append_nil] at split
  exact ⟨answered, by simp [← split]⟩

def requestInputs (ssl : Ssl) (plaintext : Bytes) (innerType : UInt8) : List AesEncBatchIn :=
  let nblocks := blocksOf (plaintext.length + 1)
  (List.range (batchesOf nblocks)).map
    (requestInput ssl (innerPlaintext plaintext innerType (batchesOf nblocks)) nblocks)

/-- What a call of `encrypt_request` that returned has done. -/
structure RequestCompleted (env : Environment) (plaintext : Bytes) (innerType : UInt8) (ssl : Ssl)
    (record : Bytes) (after : Ssl) : Prop where
  accepted : plaintext.length + 1 ≤ maxPlainLength
  inputs : after.encInputs = ssl.encInputs ++ requestInputs ssl plaintext innerType
  sent : after.sent = ssl.sent ++
    [aesEncMessage ssl.writeSequence (plaintext.length + 1),
      gcmTagMessage (recordHeader (plaintext.length + 1)) (plaintext.length + 1)]
  clock : after.clock = ssl.clock + batchesOf (blocksOf (plaintext.length + 1)) + 4
  output : ∃ chunks tagShare mask out,
    let ptLen := plaintext.length + 1
    let nbatches := batchesOf (blocksOf ptLen)
    let ct := chunks.flatten.take ptLen
    List.Forall₂ (Encrypted env ssl (ssl.clock + 1) (innerPlaintext plaintext innerType nbatches)
      (blocksOf ptLen)) (List.range nbatches) chunks ∧
    ghashShare env.ghash ssl.cgcmShare (recordHeader ptLen) ct = some tagShare ∧
    env.gcmTag (ssl.clock + nbatches + 3)
      { keyShare := ssl.clientKeyShare
        iv := ctrBlock (staticIv ssl.clientIv) ssl.writeSequence 1
        tagShare
        maskOrUnused := mask } = some out ∧
    out.cheated = false ∧
    record = recordHeader ptLen ++ ct ++ List.ofFn fun i => out.tag i ^^^ mask i

theorem encryptRequest_spec :
    Ensures (encryptRequest env plaintext innerType)
      (RequestCompleted env plaintext innerType ssl) ssl := by
  refine Ensures.get_bind ?_
  refine Ensures.require_bind fun _ => ?_
  refine Ensures.require_bind fun accepted => ?_
  refine Ensures.bind ((ensures_sslWrite _).mono ?_)
  rintro _ _ rfl
  refine Ensures.bind ((ensures_encryptRequestBatches _ _ _).mono ?_)
  rintro chunks _ ⟨encrypted, rfl⟩
  refine Ensures.bind ((ensures_sslWrite _).mono ?_)
  rintro _ _ rfl
  refine Ensures.ofOption_bind fun tagShare hashed => ?_
  refine Ensures.bind (ensures_tick.mono ?_)
  rintro maskAt _ ⟨_, rfl⟩
  refine Ensures.bind (ensures_tick.mono ?_)
  rintro _ _ ⟨rfl, rfl⟩
  refine Ensures.ofOption_bind fun out tagged => ?_
  refine Ensures.require_bind fun honest => Ensures.pure ?_
  constructor
  case accepted => exact accepted.1
  case inputs => rfl
  case sent => simp [recordHeader]
  case clock =>
    simp only
    omega
  case output =>
    refine ⟨chunks, tagShare, env.randomBytes maskAt, out, encrypted, hashed, ?_, honest, rfl⟩
    have time : ssl.clock + batchesOf (blocksOf (plaintext.length + 1)) + 3 =
        ssl.clock + 1 + batchesOf (blocksOf (plaintext.length + 1)) + 1 + 1 := by
      omega
    rw [time]
    exact tagged

section Cooperative

/-- The network and the circuits do their part, the tag circuit for this `J0`. -/
structure Environment.Cooperates (env : Environment) (j0 : Block) : Prop where
  writes : ∀ now, env.write now = true
  encrypts : ∀ now input, ∃ out, env.aesEncBatch now input = some out ∧ out.ok = true
  tags : ∀ now input, input.iv = j0 → ∃ out, env.gcmTag now input = some out ∧ out.cheated = false

theorem cooperates_cooperative (j0 : Block) : Environment.cooperative.Cooperates j0 where
  writes _ := rfl
  encrypts _ _ := ⟨_, rfl, rfl⟩
  tags _ _ _ := ⟨_, rfl, rfl⟩

theorem returns_encryptRequestBatch {j0 : Block} (cooperates : env.Cooperates j0) (inner : Bytes)
    (nblocks batch : ℕ) : Returns (encryptRequestBatch env inner nblocks batch) ssl := by
  refine Returns.get_bind (Returns.modify_bind ?_)
  refine returns_tick.bind fun now _ _ => ?_
  rcases cooperates.encrypts now (requestInput ssl inner nblocks batch) with ⟨out, answered, agreed⟩
  exact Returns.ofOption_bind answered (Returns.require_bind agreed Returns.pure)

/-- With cooperating circuits every plaintext that passes the length checks is encrypted. -/
theorem returns_encryptRequest (innerType : UInt8)
    (cooperates : env.Cooperates (ctrBlock (staticIv ssl.clientIv) ssl.writeSequence 1))
    (short : plaintext.length ≤ 1023)
    (ready : ssl.verifier = true ∧ ssl.aesEncCircuit = true ∧ ssl.gcmTagCircuit = true) :
    Returns (encryptRequest env plaintext innerType) ssl := by
  have lengths : plaintext.length + 1 ≤ maxPlainLength ∧
      batchesOf (blocksOf (plaintext.length + 1)) ≤ 4 := by
    rw [maxPlainLength, batchesOf, blocksOf]
    omega
  refine Returns.get_bind (Returns.require_bind ready ?_)
  refine Returns.require_bind lengths ?_
  refine (returns_sslWrite cooperates.writes _).bind fun _ _ _ => ?_
  refine (Returns.collect (fun batch _ => returns_encryptRequestBatch cooperates _ _ batch) _).bind
    fun chunks _ _ => ?_
  refine (returns_sslWrite cooperates.writes _).bind fun _ _ _ => ?_
  have withinPowers : ¬blocksOf 5 + blocksOf (chunks.flatten.take (plaintext.length + 1)).length + 1
      > 1088 := by
    rw [List.length_take, blocksOf, blocksOf]
    omega
  refine Returns.ofOption_bind (if_neg withinPowers) ?_
  refine returns_tick.bind fun maskAt _ _ => ?_
  refine returns_tick.bind fun now _ _ => ?_
  let input : GcmTagIn :=
    { keyShare := ssl.clientKeyShare
      iv := ctrBlock (staticIv ssl.clientIv) ssl.writeSequence 1
      tagShare := env.ghash ssl.cgcmShare (recordHeader (plaintext.length + 1))
        (chunks.flatten.take (plaintext.length + 1))
      maskOrUnused := env.randomBytes maskAt }
  rcases cooperates.tags now input rfl with ⟨out, answered, honest⟩
  exact Returns.ofOption_bind answered (Returns.require_bind honest Returns.pure)

end Cooperative

end Prover

end PracticalCrypto.Surf
