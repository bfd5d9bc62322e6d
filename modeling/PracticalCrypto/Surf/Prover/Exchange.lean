import PracticalCrypto.Surf.Prover.Request

/-!
# One encryption request seen by both parties

An `Exchange` is a call of `encrypt_request` that returned together with the call
of `encrypt_blocks` that served its `AES_ENC` message. Whatever the two
environments answered, the prover and the verifier have fed the counter blocks of
`tailSource` into their circuits, and these are pairwise distinct exactly when
the blocks of the record fill its last batch.
-/

namespace PracticalCrypto.Surf

open BlockMap Handler

/-- A request that the prover completed and the verifier served. -/
structure Exchange (plaintext : Bytes) (innerType : UInt8) where
  proverEnv : Prover.Environment
  verifierEnv : Environment
  ssl : Prover.Ssl
  sslAfter : Prover.Ssl
  record : Bytes
  requested : Prover.encryptRequest proverEnv plaintext innerType ssl = (.returned record, sslAfter)
  message : Bytes
  written : sslAfter.sent[ssl.sent.length]? = some message
  server : Server
  serverAfter : Server
  unread : Bytes
  received : MessageHeader.toByte .aesEnc :: server.inbox = message ++ unread
  served : Server.encryptBlocks verifierEnv server = (.returned (), serverAfter)

section Slots

theorem flatMap_ofFn_range {α : Type} (slot : ℕ → α) (batches : ℕ) :
    ((List.range batches).flatMap fun batch => List.ofFn fun j : Fin 16 => slot (batch * 16 + j)) =
      (List.range (batches * 16)).map slot := by
  induction batches with
  | zero => rfl
  | succ batches ih =>
      rw [List.range_succ, List.flatMap_append, ih, Nat.succ_mul, List.range_add, List.map_append,
        List.map_map]
      congr 1

variable {nblocks : ℕ}

theorem ofNat_add_two_injOn {i k : ℕ} (iLt : i < 2 ^ 32) (kLt : k < 2 ^ 32)
    (same : UInt32.ofNat i + 2 = UInt32.ofNat k + 2) : i = k := by
  have offsets := congrArg UInt32.toNat (add_right_cancel same)
  rw [UInt32.toNat_ofNat', UInt32.toNat_ofNat', Nat.mod_eq_of_lt iLt, Nat.mod_eq_of_lt kLt]
    at offsets
  exact offsets

/-- The counter blocks of a record repeat exactly if its last batch has to be padded. -/
theorem counters_nodup_iff (iv : Iv) (seq : UInt64) (positive : 0 < nblocks)
    (small : nblocks < 2 ^ 31) :
    ((List.range (batchesOf nblocks * 16)).map fun idx =>
        ctrBlock iv seq (UInt32.ofNat (tailSource nblocks idx) + 2)).Nodup ↔
      nblocks % 16 = 0 := by
  have batches : batchesOf nblocks = (nblocks + 15) / 16 := rfl
  constructor
  · intro distinct
    by_contra partly
    have last : nblocks - 1 ∈ List.range (batchesOf nblocks * 16) := by
      rw [List.mem_range]
      omega
    have padding : nblocks ∈ List.range (batchesOf nblocks * 16) := by
      rw [List.mem_range]
      omega
    have collide := List.inj_on_of_nodup_map distinct last padding
    have sameSource : tailSource nblocks (nblocks - 1) = tailSource nblocks nblocks := by
      simp [tailSource]
    rw [sameSource] at collide
    have := collide rfl
    omega
  · intro full
    apply List.Nodup.map_on _ List.nodup_range
    intro i iMem k kMem same
    rw [List.mem_range] at iMem kMem
    have iReal : tailSource nblocks i = i := if_pos (by omega)
    have kReal : tailSource nblocks k = k := if_pos (by omega)
    rw [iReal, kReal] at same
    exact ofNat_add_two_injOn (by omega) (by omega) (ctrBlock_counter_injective same)

end Slots

namespace Server

variable {env : Environment} {server : Server}

def encryptEvent (session : Session) (seq : UInt64) (nblocks batch : ℕ) : Event :=
  .aesEncBatch seq (encryptInput session seq nblocks batch).ctr

/-- The answer that the verifier gets for a batch. -/
def Answered (env : Environment) (server : Server) (seq : UInt64) (nblocks batch : ℕ)
    (out : AesEncBatchOut) : Prop :=
  env.aesEncBatch (server.clock + batch) (encryptInput server.session seq nblocks batch) = some out ∧
    out.ok = true

theorem ensures_encryptBatch (seq : UInt64) (nblocks batch : ℕ) :
    Ensures (encryptBatch env seq nblocks batch)
      (fun _ after => ∃ out,
        (env.aesEncBatch server.clock (encryptInput server.session seq nblocks batch) = some out ∧
          out.ok = true) ∧
        after =
          { server with
            session := { server.session with
              encryptedCt := server.session.encryptedCt.take (batch * 16) ++ List.ofFn out.ct ++
                server.session.encryptedCt.drop (batch * 16 + 16)
              log := encryptEvent server.session seq nblocks batch :: server.session.log }
            clock := server.clock + 1 })
      server := by
  refine Ensures.get_bind ?_
  refine Ensures.modify_bind ?_
  refine Ensures.bind (ensures_tick.mono ?_)
  rintro _ _ ⟨rfl, rfl⟩
  refine Ensures.ofOption_bind fun out answered => ?_
  refine Ensures.require_bind fun agreed => ?_
  exact Ensures.modify ⟨out, ⟨answered, agreed⟩, rfl⟩

def outputBlocks (outs : List AesEncBatchOut) : List Block :=
  outs.flatMap fun out => List.ofFn out.ct

@[simp]
theorem length_outputBlocks (outs : List AesEncBatchOut) :
    (outputBlocks outs).length = outs.length * 16 := by
  induction outs with
  | nil => rfl
  | cons out outs ih =>
      simp only [outputBlocks, List.flatMap_cons, List.length_append, List.length_ofFn,
        List.length_cons] at ih ⊢
      omega

theorem ensures_encryptBatches (seq : UInt64) (nblocks nbatches : ℕ)
    (cleared : server.session.encryptedCt = List.replicate (nbatches * 16) fun _ => 0) :
    Ensures (Handler.forEach (encryptBatch env seq nblocks) (List.range nbatches))
      (fun _ after => ∃ outs,
        List.Forall₂ (Answered env server seq nblocks) (List.range nbatches) outs ∧
        after =
          { server with
            session := { server.session with
              encryptedCt := outputBlocks outs
              log := ((List.range nbatches).map
                (encryptEvent server.session seq nblocks)).reverse ++ server.session.log }
            clock := server.clock + nbatches })
      server := by
  let holds (later : List ℕ) (current : Server) : Prop :=
    ∃ done outs, List.range nbatches = done ++ later ∧
      List.Forall₂ (Answered env server seq nblocks) done outs ∧
      current =
        { server with
          session := { server.session with
            encryptedCt := outputBlocks outs ++ List.replicate (later.length * 16) fun _ => 0
            log := (done.map (encryptEvent server.session seq nblocks)).reverse ++
              server.session.log }
          clock := server.clock + done.length }
  have kept : Ensures (Handler.forEach (encryptBatch env seq nblocks) (List.range nbatches))
      (fun _ => holds []) server := by
    refine Ensures.forEach ?_ ⟨[], [], rfl, .nil, ?_⟩
    · rintro batch later _ ⟨done, outs, split, answered, rfl⟩
      obtain rfl : batch = done.length := Prover.item_eq_length split
      have filled : (outputBlocks outs).length = done.length * 16 := by
        rw [length_outputBlocks, answered.length_eq]
      refine (ensures_encryptBatch seq nblocks _).mono ?_
      rintro _ _ ⟨out, here, rfl⟩
      refine ⟨done ++ [done.length], outs ++ [out], by simp [split],
        List.rel_append answered (.cons here .nil), ?_⟩
      have front : (outputBlocks outs ++ List.replicate ((done.length :: later).length * 16)
          fun _ => (0 : UInt8)).take (done.length * 16) = outputBlocks outs :=
        List.take_left' filled
      have back : (outputBlocks outs ++ List.replicate ((done.length :: later).length * 16)
          fun _ => (0 : UInt8)).drop (done.length * 16 + 16) =
            List.replicate (later.length * 16) fun _ => (0 : UInt8) := by
        rw [← List.drop_drop, List.drop_left' filled, List.drop_replicate, List.length_cons]
        congr 1
        omega
      simp only [front, back]
      simp [encryptEvent, encryptInput, outputBlocks, Nat.add_assoc]
    · simp [outputBlocks, ← cleared]
  refine kept.mono ?_
  rintro _ _ ⟨done, outs, split, answered, rfl⟩
  rw [List.append_nil] at split
  subst split
  exact ⟨outs, answered, by simp⟩

/-- What a call of `encrypt_blocks` that returned has read and stored. -/
theorem encryptBlocks_spec {seq : UInt64} {ptLen : ℕ} {unread : Bytes} (small : ptLen < 2 ^ 32)
    (received : server.inbox = BigEndian.ofNat 8 seq.toNat ++ (BigEndian.ofNat 4 ptLen ++ unread)) :
    Ensures (encryptBlocks env)
      (fun _ after => ∃ outs,
        List.Forall₂ (Answered env server seq (blocksOf ptLen))
          (List.range (batchesOf (blocksOf ptLen))) outs ∧
        after =
          { server with
            session := { server.session with
              encryptedCt := outputBlocks outs
              encryptCtLen := ptLen
              encryptedSeqs := server.session.encryptedSeqs ++ [seq]
              log := .encrypted seq :: (((List.range (batchesOf (blocksOf ptLen))).map
                (encryptEvent server.session seq (blocksOf ptLen))).reverse ++
                  server.session.log) }
            inbox := unread
            clock := server.clock + batchesOf (blocksOf ptLen) })
      server := by
  refine Ensures.bind ((ensures_requireCircuit _).mono ?_)
  rintro _ _ rfl
  refine Ensures.bind ((ensures_readU64 received).mono ?_)
  rintro _ _ ⟨rfl, rfl⟩
  refine Ensures.get_bind ?_
  refine Ensures.require_bind fun _ => ?_
  refine Ensures.bind ((ensures_readU32 small rfl).mono ?_)
  rintro read _ ⟨rfl, rfl⟩
  refine Ensures.require_bind fun _ => ?_
  refine Ensures.modify_bind ?_
  refine Ensures.bind ((ensures_encryptBatches _ _ _ rfl).mono ?_)
  rintro _ _ ⟨outs, answered, rfl⟩
  exact Ensures.modify ⟨outs, answered, rfl⟩

section Cooperative

theorem returns_encryptBatch
    (encrypts : ∀ now input, ∃ out, env.aesEncBatch now input = some out ∧ out.ok = true)
    (seq : UInt64) (nblocks batch : ℕ) :
    Returns (encryptBatch env seq nblocks batch) server := by
  refine Returns.get_bind (Returns.modify_bind ?_)
  refine returns_tick.bind fun now _ _ => ?_
  rcases encrypts now (encryptInput server.session seq nblocks batch) with ⟨out, answered, agreed⟩
  exact Returns.ofOption_bind answered (Returns.require_bind agreed Returns.modify)

/-- With cooperating circuits every fresh request of an admissible length is served. -/
theorem returns_encryptBlocks
    (encrypts : ∀ now input, ∃ out, env.aesEncBatch now input = some out ∧ out.ok = true)
    {seq : UInt64} {ptLen : ℕ} {unread : Bytes}
    (built : server.circuits .aesEnc = true) (fresh : seq ∉ server.session.encryptedSeqs)
    (positive : ptLen ≠ 0) (admissible : ptLen ≤ maxPlainLength)
    (received : server.inbox = BigEndian.ofNat 8 seq.toNat ++ (BigEndian.ofNat 4 ptLen ++ unread)) :
    Returns (encryptBlocks env) server := by
  have small : ptLen < 2 ^ 32 := by
    rw [maxPlainLength] at admissible
    omega
  have found : Returns (requireCircuit .aesEnc) server := Returns.get_bind (Returns.require built)
  refine found.bind ((ensures_requireCircuit _).mono ?_)
  rintro _ server rfl
  have readSeq : Returns readU64 server :=
    (returns_readExact (by simp [received])).bind fun _ _ _ => Returns.pure
  refine readSeq.bind ((ensures_readU64 received).mono ?_)
  rintro _ _ ⟨rfl, rfl⟩
  refine Returns.get_bind (Returns.require_bind fresh ?_)
  refine Returns.bind ?_ ((ensures_readU32 small rfl).mono ?_)
  · exact (returns_readExact (by simp)).bind fun _ _ _ => Returns.pure
  · rintro read _ ⟨rfl, rfl⟩
    have nonzero : read ≠ 0 := by
      rintro rfl
      exact positive rfl
    refine Returns.require_bind ⟨nonzero, admissible⟩ ?_
    refine Returns.modify_bind ?_
    refine (Returns.forEach (fun batch _ => returns_encryptBatch encrypts _ _ batch) _).bind
      fun _ _ _ => ?_
    exact Returns.modify

end Cooperative

end Server

namespace Exchange

variable {plaintext : Bytes} {innerType : UInt8}

def proverInputs (exchange : Exchange plaintext innerType) : List AesEncBatchIn :=
  exchange.sslAfter.encInputs.drop exchange.ssl.encInputs.length

/-- The events that serving the request added to the log, in the order of time. -/
def events (exchange : Exchange plaintext innerType) : List Event :=
  (exchange.serverAfter.session.log.take
    (exchange.serverAfter.session.log.length - exchange.server.session.log.length)).reverse

def verifierInputs (exchange : Exchange plaintext innerType) : List AesEncBatchIn :=
  exchange.events.filterMap fun
    | .aesEncBatch _ ctr =>
        some { key := exchange.server.session.clientKeyShare, ctr, pt := fun _ _ => 0 }
    | _ => none

/--
The counter blocks of the request are pairwise distinct on both sides, and no
padding slot publishes the keystream of a real block, whatever block cipher the
circuit evaluates.
-/
structure CountersDistinct (exchange : Exchange plaintext innerType) : Prop where
  prover : (slots exchange.proverInputs).Nodup
  verifier : (slots exchange.verifierInputs).Nodup
  unexposed : ∀ aes : Block → Block → Block, (∀ key, Function.Injective (aes key)) →
    ¬ExposesKeystream aes exchange.proverInputs exchange.verifierInputs
      (blocksOf (plaintext.length + 1))

theorem accepted (exchange : Exchange plaintext innerType) :
    plaintext.length + 1 ≤ maxPlainLength :=
  (Prover.encryptRequest_spec _ _ exchange.requested).accepted

theorem small (exchange : Exchange plaintext innerType) : plaintext.length + 1 < 2 ^ 32 := by
  have := exchange.accepted
  rw [maxPlainLength] at this
  omega

variable (exchange : Exchange plaintext innerType)

theorem proverInputs_eq :
    exchange.proverInputs = Prover.requestInputs exchange.ssl plaintext innerType := by
  rw [proverInputs, (Prover.encryptRequest_spec _ _ exchange.requested).inputs, List.drop_left]

theorem inbox_eq : exchange.server.inbox =
    BigEndian.ofNat 8 exchange.ssl.writeSequence.toNat ++
      (BigEndian.ofNat 4 (plaintext.length + 1) ++ exchange.unread) := by
  have sent := exchange.written
  rw [(Prover.encryptRequest_spec _ _ exchange.requested).sent, List.getElem?_append_right le_rfl,
    Nat.sub_self, List.getElem?_cons_zero, Option.some.injEq] at sent
  have received := exchange.received
  rw [← sent, Prover.aesEncMessage, List.cons_append, List.cons.injEq, List.append_assoc] at received
  exact received.2

theorem verifierInputs_eq : exchange.verifierInputs =
    (List.range (batchesOf (blocksOf (plaintext.length + 1)))).map
      (Server.encryptInput exchange.server.session exchange.ssl.writeSequence
        (blocksOf (plaintext.length + 1))) := by
  rcases Server.encryptBlocks_spec exchange.small exchange.inbox_eq _ _ exchange.served with
    ⟨_, _, served⟩
  have log := congrArg (fun server => server.session.log) served
  simp only [← List.cons_append] at log
  have added : exchange.events =
      (List.range (batchesOf (blocksOf (plaintext.length + 1)))).map
        (Server.encryptEvent exchange.server.session exchange.ssl.writeSequence
          (blocksOf (plaintext.length + 1))) ++ [.encrypted exchange.ssl.writeSequence] := by
    rw [events, log, List.length_append, Nat.add_sub_cancel, List.take_left]
    simp
  rw [verifierInputs, added]
  simp [Server.encryptEvent, Server.encryptInput, Function.comp_def]

theorem slots_proverInputs : slots exchange.proverInputs =
    (List.range (batchesOf (blocksOf (plaintext.length + 1)) * 16)).map fun idx =>
      ctrBlock (Prover.staticIv exchange.ssl.clientIv) exchange.ssl.writeSequence
        (UInt32.ofNat (tailSource (blocksOf (plaintext.length + 1)) idx) + 2) := by
  rw [proverInputs_eq, slots, Prover.requestInputs, List.flatMap_map, ← flatMap_ofFn_range]
  rfl

theorem slots_verifierInputs : slots exchange.verifierInputs =
    (List.range (batchesOf (blocksOf (plaintext.length + 1)) * 16)).map fun idx =>
      ctrBlock exchange.server.session.clientIv exchange.ssl.writeSequence
        (UInt32.ofNat (tailSource (blocksOf (plaintext.length + 1)) idx) + 2) := by
  rw [verifierInputs_eq, slots, List.flatMap_map, ← flatMap_ofFn_range]
  rfl

theorem tailSource_padding (nblocks : ℕ) :
    tailSource nblocks nblocks = tailSource nblocks (nblocks - 1) := by
  simp [tailSource]

theorem requestBlocks_padding {nbatches batch : ℕ} {j : Fin 16}
    (past : plaintext.length + 1 ≤ (batch * 16 + j) * 16) :
    Prover.requestBlocks (Prover.innerPlaintext plaintext innerType nbatches) batch j =
      fun _ => 0 := by
  funext i
  have beyond : plaintext.length < (batch * 16 + j) * 16 + i := by omega
  rw [Prover.requestBlocks, Prover.innerPlaintext, List.getD_eq_getElem?_getD,
    List.getElem?_append_right beyond.le, List.getElem?_cons, if_neg (by omega),
    List.getElem?_replicate]
  split
  · rfl
  · rfl

theorem proverInputs_getElem? {batch : ℕ}
    (inRange : batch < batchesOf (blocksOf (plaintext.length + 1))) :
    exchange.proverInputs[batch]? = some (Prover.requestInput exchange.ssl
      (Prover.innerPlaintext plaintext innerType (batchesOf (blocksOf (plaintext.length + 1))))
      (blocksOf (plaintext.length + 1)) batch) := by
  rw [exchange.proverInputs_eq, Prover.requestInputs, List.getElem?_map,
    List.getElem?_range inRange]
  rfl

theorem verifierInputs_getElem? {batch : ℕ}
    (inRange : batch < batchesOf (blocksOf (plaintext.length + 1))) :
    exchange.verifierInputs[batch]? = some (Server.encryptInput exchange.server.session
      exchange.ssl.writeSequence (blocksOf (plaintext.length + 1)) batch) := by
  rw [exchange.verifierInputs_eq, List.getElem?_map, List.getElem?_range inRange]
  rfl

/--
If the parties agree on the IV, a record that leaves slots of its last batch free
publishes the keystream of its last block.
-/
theorem exposesKeystream_of_padding (aes : Block → Block → Block)
    (agree : Prover.staticIv exchange.ssl.clientIv = exchange.server.session.clientIv)
    (partly : blocksOf (plaintext.length + 1) % 16 ≠ 0) :
    ExposesKeystream aes exchange.proverInputs exchange.verifierInputs
      (blocksOf (plaintext.length + 1)) := by
  have fed := @exchange.proverInputs_getElem?
  have answered := @exchange.verifierInputs_getElem?
  have covers : plaintext.length + 1 ≤ blocksOf (plaintext.length + 1) * 16 := by
    rw [blocksOf]
    omega
  generalize blocksOf (plaintext.length + 1) = nblocks at *
  have paddingIndex : nblocks / 16 * 16 + nblocks % 16 = nblocks := by omega
  have realIndex : (nblocks - 1) / 16 * 16 + (nblocks - 1) % 16 = nblocks - 1 := by omega
  have sameCounters : Prover.requestCounters exchange.ssl.clientIv exchange.ssl.writeSequence
      nblocks (nblocks / 16) = Server.encryptCounters exchange.server.session.clientIv
        exchange.ssl.writeSequence nblocks (nblocks / 16) := by
    rw [← agree]
    rfl
  have padding : nblocks / 16 < batchesOf nblocks := by
    rw [batchesOf]
    omega
  have real : (nblocks - 1) / 16 < batchesOf nblocks := by
    rw [batchesOf]
    omega
  -- the first free slot has a zero plaintext and the counter of the last block
  refine ⟨nblocks / 16, (nblocks - 1) / 16, ⟨nblocks % 16, by omega⟩,
    ⟨(nblocks - 1) % 16, by omega⟩, _, _, _, paddingIndex.ge, ?_, fed padding,
    answered padding, fed real, decide_eq_true sameCounters, ?_⟩
  · rw [realIndex]
    omega
  · rw [deriveAesEncBatch_zero sameCounters (requestBlocks_padding (paddingIndex.symm ▸ covers))]
    simp only [Prover.requestInput, Prover.requestCounters, paddingIndex, realIndex,
      tailSource_padding nblocks]

/--
The joint encryption of a request is confidential exactly for the plaintexts
that fill the last batch of 16 blocks together with the content type.
-/
theorem countersDistinct_iff : exchange.CountersDistinct ↔ 240 ≤ plaintext.length % 256 := by
  have positive : 0 < blocksOf (plaintext.length + 1) := by
    rw [blocksOf]
    omega
  have small : blocksOf (plaintext.length + 1) < 2 ^ 31 := by
    have := exchange.accepted
    rw [maxPlainLength] at this
    rw [blocksOf]
    omega
  have full : blocksOf (plaintext.length + 1) % 16 = 0 ↔ 240 ≤ plaintext.length % 256 := by
    rw [blocksOf]
    omega
  constructor
  · intro distinct
    have nodup := distinct.prover
    rw [slots_proverInputs] at nodup
    exact full.mp ((counters_nodup_iff _ _ positive small).mp nodup)
  · intro fills
    have noPadding := full.mpr fills
    refine ⟨?_, ?_, ?_⟩
    · rw [slots_proverInputs]
      exact (counters_nodup_iff _ _ positive small).mpr noPadding
    · rw [slots_verifierInputs]
      exact (counters_nodup_iff _ _ positive small).mpr noPadding
    · rintro aes _ ⟨padding, real, j, k, a, b, a', past, _, fed, _⟩
      have inRange : padding < exchange.proverInputs.length := (List.getElem?_eq_some_iff.mp fed).1
      rw [proverInputs_eq, Prover.requestInputs, List.length_map, List.length_range, batchesOf]
        at inRange
      omega

/-- Every plaintext within the length checks is the plaintext of an exchange. -/
theorem exists_of_short (innerType : UInt8) (short : plaintext.length ≤ 1023) :
    ∃ exchange : Exchange plaintext innerType,
      Prover.staticIv exchange.ssl.clientIv = exchange.server.session.clientIv := by
  let ssl := Prover.Ssl.initial .masked
  let server : Server :=
    { Server.initial .masked with
      circuits := fun _ => true
      inbox := BigEndian.ofNat 8 0 ++ (BigEndian.ofNat 4 (plaintext.length + 1) ++ []) }
  have admissible : plaintext.length + 1 ≤ maxPlainLength := by
    rw [maxPlainLength]
    omega
  have requests : Returns
      (Prover.encryptRequest Prover.Environment.cooperative plaintext innerType) ssl :=
    Prover.returns_encryptRequest innerType (Prover.cooperates_cooperative _) short ⟨rfl, rfl, rfl⟩
  have fresh : (0 : UInt64) ∉ server.session.encryptedSeqs := List.not_mem_nil
  have serves : Returns (Server.encryptBlocks (Environment.cooperative [] 0)) server :=
    Server.returns_encryptBlocks (fun _ _ => ⟨_, rfl, rfl⟩) rfl fresh (Nat.succ_ne_zero _) admissible rfl
  rcases requests with ⟨record, sslAfter, requested⟩
  rcases serves with ⟨_, serverAfter, served⟩
  have written : sslAfter.sent[ssl.sent.length]? =
      some (Prover.aesEncMessage ssl.writeSequence (plaintext.length + 1)) := by
    rw [(Prover.encryptRequest_spec _ _ requested).sent]
    rfl
  refine ⟨⟨_, _, ssl, sslAfter, record, requested, _, written, server, serverAfter, [], ?_, served⟩,
    rfl⟩
  simp only [List.append_nil]
  rfl

/-- The keystream of a request that consists of the content type alone is published. -/
theorem not_countersDistinct_empty :
    ∃ exchange : Exchange [] 23, ¬exchange.CountersDistinct ∧
      ∀ aes, ExposesKeystream aes exchange.proverInputs exchange.verifierInputs 1 := by
  have short : ([] : Bytes).length ≤ 1023 := by decide
  rcases exists_of_short 23 short with ⟨exchange, agree⟩
  have exposed := fun aes => exchange.exposesKeystream_of_padding aes agree (by decide)
  refine ⟨exchange, ?_, exposed⟩
  intro distinct
  exact distinct.unexposed (fun _ block => block) (fun _ _ _ same => same) (exposed _)

/-- A request of 240 bytes fills one batch, and its counters are distinct. -/
theorem countersDistinct_full_batch :
    ∃ exchange : Exchange (List.replicate 240 0) 23, exchange.CountersDistinct := by
  have short : (List.replicate 240 (0 : UInt8)).length ≤ 1023 := by
    rw [List.length_replicate]
    decide
  rcases exists_of_short 23 short with ⟨exchange, _⟩
  have fills : 240 ≤ (List.replicate 240 (0 : UInt8)).length % 256 := by
    rw [List.length_replicate]
  exact ⟨exchange, exchange.countersDistinct_iff.mpr fills⟩

end Exchange

end PracticalCrypto.Surf
