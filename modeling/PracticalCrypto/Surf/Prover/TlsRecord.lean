import PracticalCrypto.Surf.Circuit.Tag
import PracticalCrypto.Surf.GHash
import PracticalCrypto.Surf.Prover.Exchange

/-!
# The record of a request

A `RecordExchange` is a request that the prover completed and whose two messages the
verifier served. If the circuits meet their specifications and the parties hold shares
of the powers of the hash key, the record is the AES-128-GCM encryption of the request
under the joint key, as TLS 1.3 asks for.

Each party truncates its own copy of the public output of the encryption circuit, and
the two copies are compared through `sealedBlock`, the block that every slot stands for.
-/

namespace PracticalCrypto.Surf

open BlockMap Handler F2128Mta

section Nonce

/-- The per-record nonce of TLS 1.3: the sequence number, padded to the length of the IV. -/
def nonce (iv : Iv) (seq : UInt64) : BitVec 96 :=
  BitVec.ofNat 96 (BigEndian.toNat (List.ofFn iv)) ^^^ BitVec.ofNat 96 seq.toNat

theorem testBit_seqByte (seq : UInt64) {shift j : ℕ} (inSeq : shift < 64) (inByte : j < 8) :
    (seq >>> UInt64.ofNat shift).toUInt8.toNat.testBit j = seq.toNat.testBit (shift + j) := by
  have amount : (UInt64.ofNat shift).toNat = shift := by
    rw [UInt64.toNat_ofNat', Nat.mod_eq_of_lt (by omega)]
  rw [UInt64.toNat_toUInt8, Nat.testBit_mod_two_pow, UInt64.toNat_shiftRight, amount,
    Nat.mod_eq_of_lt inSeq, Nat.testBit_shiftRight, decide_eq_true inByte, Bool.true_and]

theorem testBit_counterByte (counter : UInt32) {shift j : ℕ} (inCounter : shift < 32)
    (inByte : j < 8) :
    (counter >>> UInt32.ofNat shift).toUInt8.toNat.testBit j =
      counter.toNat.testBit (shift + j) := by
  rw [toNat_counter_byte counter shift inCounter, show 256 = 2 ^ 8 by rfl,
    Nat.testBit_mod_two_pow, Nat.testBit_div_two_pow, decide_eq_true inByte, Bool.true_and,
    Nat.add_comm]

theorem getMsbD_iv (iv : Iv) {i : ℕ} (inIv : i < 96) :
    (BitVec.ofNat 96 (BigEndian.toNat (List.ofFn iv))).getMsbD i =
      (iv ⟨i / 8, by omega⟩).toNat.testBit (7 - i % 8) := by
  have position : 95 - i < 8 * (List.ofFn iv).length := by
    rw [List.length_ofFn]
    omega
  have inReverse : (95 - i) / 8 < 12 := by omega
  have mirroredBit : (95 - i) % 8 = 7 - i % 8 := by omega
  have mirroredByte : Fin.rev ⟨(95 - i) / 8, inReverse⟩ = ⟨i / 8, by omega⟩ := by
    apply Fin.ext
    simp only [Fin.val_rev]
    omega
  rw [BitVec.getMsbD_eq_getLsbD, BitVec.getLsbD_ofNat, Wires.testBit_bigEndian _ position,
    Wires.getD_reverse_ofFn _ _ inReverse, mirroredByte, mirroredBit, decide_eq_true inIv,
    decide_eq_true (show 96 - 1 - i < 96 by omega)]
  rfl

/-- A counter block is the nonce of its record and the counter. -/
theorem ofOctets_ctrBlock (iv : Iv) (seq : UInt64) (counter : UInt32) :
    Gcm.ofOctets (ctrBlock iv seq counter) =
      nonce iv seq ++ BitVec.ofNat 32 counter.toNat := by
  apply BitVec.eq_of_getMsbD_eq
  intro i inBlock
  rw [Gcm.getMsbD_ofOctets _ inBlock, BitVec.getMsbD_append]
  by_cases inNonce : i < 96
  · rw [if_neg (by omega)]
    have byteInNonce : i / 8 < 12 := by omega
    have seqBit : (if 4 ≤ i / 8 then (seq >>> UInt64.ofNat (8 * (11 - i / 8))).toUInt8
        else 0).toNat.testBit (7 - i % 8) = (BitVec.ofNat 96 seq.toNat).getMsbD i := by
      rw [BitVec.getMsbD_eq_getLsbD, BitVec.getLsbD_ofNat, decide_eq_true inNonce,
        decide_eq_true (show 96 - 1 - i < 96 by omega), Bool.true_and, Bool.true_and]
      split_ifs with late
      · rw [testBit_seqByte seq (by omega) (by omega)]
        congr 1
        omega
      · rw [Nat.testBit_lt_two_pow (lt_of_lt_of_le seq.toNat_lt
          (Nat.pow_le_pow_right (by decide) (show 64 ≤ 96 - 1 - i by omega)))]
        simp
    simp only [ctrBlock, dif_pos byteInNonce, UInt8.toNat_xor, Nat.testBit_xor, seqBit, nonce,
      BitVec.getMsbD_xor, getMsbD_iv iv inNonce]
    exact Bool.xor_comm ..
  · rw [if_pos (by omega)]
    have byteInCounter : ¬i / 8 < 12 := by omega
    have inCounter : i - 96 < 32 := by omega
    simp only [ctrBlock, dif_neg byteInCounter]
    rw [testBit_counterByte counter (by omega) (by omega), BitVec.getMsbD_eq_getLsbD,
      BitVec.getLsbD_ofNat, decide_eq_true inCounter,
      decide_eq_true (show 32 - 1 - (i - 96) < 32 by omega), Bool.true_and, Bool.true_and]
    congr 1
    omega

end Nonce

section Sealed

variable (aes : Block → Block → Block) (key : Block) (iv : Iv) (seq : UInt64)

/-- The block cipher under a key, on blocks as words. -/
def cipher : BitVec 128 → BitVec 128 := fun block => Gcm.ofOctets (aes key (Gcm.toOctets block))

theorem cipher_ctrBlock (counter : UInt32) :
    cipher aes key (nonce iv seq ++ BitVec.ofNat 32 counter.toNat) =
      Gcm.ofOctets (aes key (ctrBlock iv seq counter)) := by
  rw [cipher, ← ofOctets_ctrBlock, Gcm.toOctets_ofOctets]

/-- What slot `idx` of the batches of a record encrypts to. -/
def sealedBlock (inner : Bytes) (nblocks idx : ℕ) : Block := fun i =>
  aes key (ctrBlock iv seq (UInt32.ofNat (tailSource nblocks idx) + 2)) i ^^^
    inner.getD (idx * 16 + i) 0

theorem flatMap_sealedBlock (inner : Bytes) (nblocks nslots : ℕ) :
    ((List.range nslots).map (sealedBlock aes key iv seq inner nblocks)).flatMap List.ofFn =
      (List.range (nslots * 16)).map fun n =>
        sealedBlock aes key iv seq inner nblocks (n / 16) ⟨n % 16, Nat.mod_lt n (by decide)⟩ := by
  rw [List.flatMap_map, ← flatMap_ofFn_range]
  apply List.flatMap_congr
  intro idx _
  congr 1
  funext i
  have quotient : (idx * 16 + i.val) / 16 = idx := by omega
  have remainder : (idx * 16 + i.val) % 16 = i.val := by omega
  simp only [quotient, remainder]

theorem iterate_counter (n : ℕ) :
    Gcm.inc32^[n] (Gcm.inc32 (nonce iv seq ++ 1#32)) =
      nonce iv seq ++ BitVec.ofNat 32 (UInt32.ofNat n + 2).toNat := by
  have counter : 1#32 + BitVec.ofNat 32 (n + 1) = BitVec.ofNat 32 (UInt32.ofNat n + 2).toNat := by
    apply BitVec.eq_of_toNat_eq
    rw [UInt32.toNat_add, UInt32.toNat_ofNat']
    simp only [BitVec.toNat_add, BitVec.toNat_ofNat, UInt32.reduceToNat]
    omega
  rw [← Function.iterate_succ_apply, Gcm.iterate_inc32, counter]

theorem getD_innerPlaintext (plaintext : Bytes) (innerType : UInt8) (nbatches : ℕ) {n : ℕ}
    (inText : n < (plaintext ++ [innerType]).length) :
    (Prover.innerPlaintext plaintext innerType nbatches).getD n 0 =
      (plaintext ++ [innerType])[n] := by
  rw [Prover.innerPlaintext, List.append_cons, List.getD_append _ _ _ _ inText,
    List.getD_eq_getElem _ _ inText]

/-- Counter mode on the inner plaintext gives the bytes of the sealed blocks. -/
theorem take_sealedBytes (plaintext : Bytes) (innerType : UInt8) :
    let ptLen := plaintext.length + 1
    let nblocks := blocksOf ptLen
    let inner := Prover.innerPlaintext plaintext innerType (batchesOf nblocks)
    (((List.range (batchesOf nblocks * 16)).map (sealedBlock aes key iv seq inner nblocks)).flatMap
      List.ofFn).take ptLen =
        Gcm.gctr (cipher aes key) (Gcm.inc32 (nonce iv seq ++ 1#32)) (plaintext ++ [innerType]) := by
  intro ptLen nblocks inner
  have covered : ptLen ≤ batchesOf nblocks * 16 * 16 := by
    simp only [nblocks, batchesOf, blocksOf]
    omega
  rw [flatMap_sealedBlock, ← List.map_take, List.take_range, Nat.min_eq_left covered]
  apply List.ext_getElem
  · simp [ptLen]
  · intro n inBytes inOutput
    have inText : n < (plaintext ++ [innerType]).length := by
      simpa using inOutput
    have inRecord : n / 16 < nblocks := by
      simp only [List.length_append, List.length_singleton] at inText
      simp only [nblocks, ptLen, blocksOf]
      omega
    simp only [List.getElem_map, List.getElem_range, Gcm.gctr, List.getElem_mapIdx]
    rw [sealedBlock, tailSource, if_pos inRecord, Nat.div_add_mod',
      getD_innerPlaintext _ _ _ inText, iterate_counter, cipher_ctrBlock, Gcm.toOctets_ofOctets]
    exact UInt8.xor_comm ..

end Sealed

namespace Server

variable {env : Environment} {server after : Server}

/-- One round of the loops that dispatch the messages of the prover. -/
def serveMessage (env : Environment) : Handler Server Unit := do
  let header ← readSingleHeader
  record (.message header)
  match dispatch env header with
  | some handler => handler
  | none => Handler.fail

theorem attest_succ_of_served (served : serveMessage env server = (.returned (), after))
    (fuel : ℕ) : attest env (fuel + 1) server = attest env fuel after := by
  rw [serveMessage] at served
  rw [attest]
  rcases read : readSingleHeader server with ⟨header | _ | _, headerRead⟩
  · rw [bind_of_returned read] at served ⊢
    have recorded : record (.message header) headerRead = (.returned (), _) := rfl
    rw [bind_of_returned recorded] at served ⊢
    rcases dispatched : dispatch env header with _ | handler
    · rw [dispatched] at served
      cases served
    · rw [dispatched] at served
      simp only at served ⊢
      rw [bind_of_returned served]
  · rw [bind_of_failed read] at served
    cases served
  · rw [bind_of_aborted read] at served
    cases served

theorem ensures_readHeader {header : MessageHeader} {unread : Bytes}
    (received : server.inbox = header.toByte :: unread) :
    Ensures readSingleHeader
      (fun read after => read = header ∧ after = { server with inbox := unread }) server := by
  refine Ensures.bind ((ensures_readExact 1).mono ?_)
  rintro _ _ ⟨_, rfl, rfl⟩
  apply Ensures.ofOption
  intro found decoded
  rw [received] at decoded ⊢
  simp only [List.take_succ_cons, List.take_zero, List.head?_cons, Option.bind_some,
    MessageHeader.ofByte_toByte, Option.some.injEq] at decoded
  exact ⟨decoded.symm, rfl⟩

theorem ensures_readBytes {bytes unread : Bytes} (received : server.inbox = bytes ++ unread) :
    Ensures (readExact bytes.length)
      (fun read after => read = bytes ∧ after = { server with inbox := unread }) server := by
  refine (ensures_readExact _).mono ?_
  rintro _ _ ⟨_, rfl, rfl⟩
  simp [received]

theorem ensures_readU16 {value : ℕ} {unread : Bytes} (small : value < 2 ^ 16)
    (received : server.inbox = BigEndian.ofNat 2 value ++ unread) :
    Ensures readU16
      (fun read after => read.toNat = value ∧ after = { server with inbox := unread }) server := by
  refine Ensures.bind ((ensures_readExact 2).mono ?_)
  rintro _ _ ⟨_, rfl, rfl⟩
  refine Ensures.pure ⟨?_, by simp [received]⟩
  rw [received, List.take_left' (BigEndian.length_ofNat 2 _), BigEndian.toNat_ofNat,
    UInt16.toNat_ofNat', Nat.mod_mod_of_dvd _ (by decide)]
  exact Nat.mod_eq_of_lt small

/-- What `make_gcm_tag` hashes: the AAD of the message and the ciphertext that it has stored. -/
theorem makeGcmTag_log {aad unread : Bytes} {ptLen : ℕ} {seq : UInt64} (smallAad : aad.length < 2 ^ 16)
    (small : ptLen < 2 ^ 32)
    (received : server.inbox =
      BigEndian.ofNat 2 aad.length ++ (aad ++ (BigEndian.ofNat 4 ptLen ++ unread)))
    (last : server.session.encryptedSeqs.getLast? = some seq) :
    Ensures (makeGcmTag env)
      (fun _ after => after.session.log =
        .tagCircuit seq aad (storedCiphertext server.session ptLen) :: server.session.log)
      server := by
  refine Ensures.bind ((ensures_requireCircuit _).mono ?_)
  rintro _ _ rfl
  refine Ensures.bind ((ensures_readU16 smallAad received).mono ?_)
  rintro aadLen _ ⟨sameLength, rfl⟩
  rw [sameLength]
  refine Ensures.require_bind fun _ => ?_
  refine Ensures.bind ((ensures_readBytes rfl).mono ?_)
  rintro _ _ ⟨rfl, rfl⟩
  refine Ensures.modify_bind ?_
  refine Ensures.bind ((ensures_readU32 small rfl).mono ?_)
  rintro ctLen _ ⟨rfl, rfl⟩
  refine Ensures.get_bind ?_
  refine Ensures.require_bind fun _ => ?_
  simp only [last]
  refine Ensures.ofOption_bind fun tagShare _ => ?_
  refine Ensures.modify_bind ?_
  refine Ensures.bind (ensures_tick.mono ?_)
  rintro _ _ ⟨_, rfl⟩
  refine Ensures.ofOption_bind fun out _ => ?_
  exact Ensures.require fun _ => rfl

theorem serveMessage_gcmTag_log {aad unread : Bytes} {ptLen : ℕ} {seq : UInt64}
    (smallAad : aad.length < 2 ^ 16) (small : ptLen < 2 ^ 32)
    (received : server.inbox = Prover.gcmTagMessage aad ptLen ++ unread)
    (last : server.session.encryptedSeqs.getLast? = some seq) :
    Ensures (serveMessage env)
      (fun _ after => after.session.log =
        .tagCircuit seq aad (storedCiphertext server.session ptLen) ::
          .message .gcmTag :: server.session.log)
      server := by
  rw [Prover.gcmTagMessage, List.cons_append, List.append_assoc, List.append_assoc] at received
  refine Ensures.bind ((ensures_readHeader received).mono ?_)
  rintro _ _ ⟨rfl, rfl⟩
  refine Ensures.modify_bind ?_
  exact makeGcmTag_log smallAad small rfl last

/-- With a cooperating circuit the tag of a stored ciphertext is made. -/
theorem returns_makeGcmTag
    (tags : ∀ now input, ∃ out, env.gcmTag now input = some out ∧ out.cheated = false)
    {aad unread : Bytes} {ptLen : ℕ} {seq : UInt64} (built : server.circuits .gcmTag = true)
    (headerLength : aad.length = recordHeaderLength) (admissible : ptLen ≤ maxPlainLength)
    (received : server.inbox =
      BigEndian.ofNat 2 aad.length ++ (aad ++ (BigEndian.ofNat 4 ptLen ++ unread)))
    (announced : server.session.encryptCtLen = ptLen) (stored : server.session.encryptedCt ≠ [])
    (last : server.session.encryptedSeqs.getLast? = some seq) :
    Returns (makeGcmTag env) server := by
  have small : ptLen < 2 ^ 32 := by
    rw [maxPlainLength] at admissible
    omega
  have smallAad : aad.length < 2 ^ 16 := by
    rw [headerLength]
    decide
  have fits : ¬blocksOf aad.length + blocksOf (storedCiphertext server.session ptLen).length + 1 >
      1088 := by
    rw [headerLength, storedCiphertext, List.length_take, recordHeaderLength, blocksOf, blocksOf]
    rw [maxPlainLength] at admissible
    omega
  have found : Returns (requireCircuit .gcmTag) server := Returns.get_bind (Returns.require built)
  refine found.bind ((ensures_requireCircuit _).mono ?_)
  rintro _ server rfl
  have readAadLen : Returns readU16 server :=
    (returns_readExact (by simp [received])).bind fun _ _ _ => Returns.pure
  refine readAadLen.bind ((ensures_readU16 smallAad received).mono ?_)
  rintro aadLen _ ⟨sameLength, rfl⟩
  rw [sameLength]
  refine Returns.require_bind headerLength ?_
  refine (returns_readExact (by simp)).bind ((ensures_readBytes rfl).mono ?_)
  rintro _ _ ⟨rfl, rfl⟩
  refine Returns.modify_bind ?_
  refine Returns.bind ?_ ((ensures_readU32 small rfl).mono ?_)
  · exact (returns_readExact (by simp)).bind fun _ _ _ => Returns.pure
  · rintro ctLen _ ⟨rfl, rfl⟩
    refine Returns.get_bind (Returns.require_bind ⟨announced.symm, stored⟩ ?_)
    simp only [last]
    refine Returns.ofOption_bind (if_neg fits) ?_
    refine Returns.modify_bind ?_
    refine returns_tick.bind fun now _ _ => ?_
    rcases tags now _ with ⟨out, answered, honest⟩
    exact Returns.ofOption_bind answered (Returns.require honest)

theorem returns_serveMessage {header : MessageHeader} {handler : Handler Server Unit}
    {unread : Bytes} (dispatched : dispatch env header = some handler)
    (received : server.inbox = header.toByte :: unread)
    (serves : Returns handler
      { server with
        inbox := unread
        session := { server.session with log := .message header :: server.session.log } }) :
    Returns (serveMessage env) server := by
  have readHeader : Returns readSingleHeader server := by
    refine (returns_readExact (by simp [received])).bind ((ensures_readExact 1).mono ?_)
    rintro _ _ ⟨_, rfl, rfl⟩
    apply Returns.ofOption
    rw [received, List.take_succ_cons, List.head?_cons, Option.bind_some,
      MessageHeader.ofByte_toByte]
  refine readHeader.bind ((ensures_readHeader received).mono ?_)
  rintro _ _ ⟨rfl, rfl⟩
  refine Returns.modify_bind ?_
  simp only [dispatched]
  exact serves

end Server

/-- A request of which the verifier has served both messages, with the hash of the source. -/
structure RecordExchange (plaintext : Bytes) (innerType : UInt8) extends
    Exchange plaintext innerType where
  proverGhash : proverEnv.ghash = GHash.polynomial
  verifierGhash : verifierEnv.ghash = GHash.polynomial
  tagMessage : Bytes
  tagWritten : sslAfter.sent[ssl.sent.length + 1]? = some tagMessage
  tagUnread : Bytes
  continued : unread = tagMessage ++ tagUnread
  tagged : Server
  tagServed : Server.serveMessage verifierEnv serverAfter = (.returned (), tagged)

namespace RecordExchange

variable {plaintext : Bytes} {innerType : UInt8} {aes : Block → Block → Block}

section Statement

variable (exchange : RecordExchange plaintext innerType)

/-- The inputs of the verifier to the tag circuit, by the events of the second message. -/
def verifierTagInputs : List GcmTagIn :=
  let session := exchange.server.session
  (exchange.tagged.session.log.take (exchange.tagged.session.log.length -
    exchange.serverAfter.session.log.length)).filterMap fun
    | .tagCircuit seq aad ct => some
        { keyShare := session.clientKeyShare
          iv := ctrBlock session.clientIv seq 1
          tagShare := GHash.polynomial session.clientGcmPowers aad ct
          maskOrUnused := fun _ => 0 }
    | _ => none

/--
While the exchange lasts, both parties get the public output of the encryption circuit on
what they fed into it in a batch.
-/
def EncryptionMeetsSpecification (aes : Block → Block → Block) : Prop :=
  ∀ (batch : ℕ) (a b : AesEncBatchIn), exchange.proverInputs[batch]? = some a →
    exchange.verifierInputs[batch]? = some b →
    (∀ now out, exchange.ssl.clock ≤ now → now < exchange.sslAfter.clock →
      exchange.proverEnv.aesEncBatch now a = some out → out = deriveAesEncBatch aes a b) ∧
    ∀ now out, exchange.server.clock ≤ now → now < exchange.serverAfter.clock →
      exchange.verifierEnv.aesEncBatch now b = some out → out = deriveAesEncBatch aes a b

/-- The prover gets the public output of the tag circuit. -/
def TagMeetsSpecification (aes : Block → Block → Block) : Prop :=
  ∀ b ∈ exchange.verifierTagInputs, ∀ a now out, exchange.ssl.clock ≤ now →
    now < exchange.sslAfter.clock → exchange.proverEnv.gcmTag now a = some out →
      out = deriveGcmTag aes a b

def key : Block := fun i =>
  exchange.ssl.clientKeyShare i ^^^ exchange.server.session.clientKeyShare i

/-- The tables of the parties share the powers of the bit-reversed hash key. -/
def PowersShared (aes : Block → Block → Block) : Prop :=
  ∀ i < 1088, GHash.power exchange.ssl.cgcmShare i ^^^
    GHash.power exchange.server.session.clientGcmPowers i =
      pow (arrToBlock (GHash.bitrev (aes exchange.key fun _ => 0))) (i + 1)

end Statement

section Ciphertext

variable (exchange : RecordExchange plaintext innerType)

/-- The slots of the request. -/
def block (aes : Block → Block → Block) (idx : ℕ) : Block :=
  let nblocks := blocksOf (plaintext.length + 1)
  sealedBlock aes exchange.key (Prover.staticIv exchange.ssl.clientIv) exchange.ssl.writeSequence
    (Prover.innerPlaintext plaintext innerType (batchesOf nblocks)) nblocks idx

theorem ct_eq_block {batch : ℕ} {out : AesEncBatchOut}
    (derived : out = deriveAesEncBatch aes
      (Prover.requestInput exchange.ssl (Prover.innerPlaintext plaintext innerType
        (batchesOf (blocksOf (plaintext.length + 1)))) (blocksOf (plaintext.length + 1)) batch)
      (Server.encryptInput exchange.server.session exchange.ssl.writeSequence
        (blocksOf (plaintext.length + 1)) batch))
    (agreed : out.ok = true) :
    out.ct = fun j : Fin 16 => exchange.block aes (batch * 16 + j) := by
  subst derived
  have sameCounters := of_decide_eq_true agreed
  funext j i
  simp only [deriveAesEncBatch, if_pos sameCounters]
  rfl

theorem map_eq_map_of_forall₂ {α β γ : Type} {rel : α → β → Prop} {f : α → γ} {g : β → γ}
    {items : List α} {values : List β} (related : List.Forall₂ rel items values)
    (determined : ∀ item ∈ items, ∀ value, rel item value → g value = f item) :
    values.map g = items.map f := by
  induction related with
  | nil => rfl
  | @cons item value items values here _ ih =>
      rw [List.map_cons, List.map_cons, determined item List.mem_cons_self value here, ih]
      intro item inItems
      exact determined item (List.mem_cons_of_mem _ inItems)

theorem prover_ciphertext (meets : exchange.EncryptionMeetsSpecification aes) {chunks : List Bytes}
    (encrypted : List.Forall₂ (Prover.Encrypted exchange.proverEnv exchange.ssl
      (exchange.ssl.clock + 1)
      (Prover.innerPlaintext plaintext innerType (batchesOf (blocksOf (plaintext.length + 1))))
      (blocksOf (plaintext.length + 1)))
      (List.range (batchesOf (blocksOf (plaintext.length + 1)))) chunks) :
    chunks.flatten = ((List.range (batchesOf (blocksOf (plaintext.length + 1)) * 16)).map
      (exchange.block aes)).flatMap List.ofFn := by
  have batches : chunks.map id = (List.range (batchesOf (blocksOf (plaintext.length + 1)))).map
      fun batch => (List.ofFn fun j : Fin 16 => exchange.block aes (batch * 16 + j)).flatMap
        List.ofFn := by
    apply map_eq_map_of_forall₂ encrypted
    rintro batch inRange _ ⟨out, answered, agreed, rfl⟩
    have inBatches := List.mem_range.mp inRange
    have clock := (Prover.encryptRequest_spec _ _ exchange.requested).clock
    have derived := (meets batch _ _ (exchange.proverInputs_getElem? inBatches)
      (exchange.verifierInputs_getElem? inBatches)).1 _ out (by omega) (by omega) answered
    rw [id, exchange.ct_eq_block derived agreed]
  rw [List.map_id] at batches
  rw [batches, ← List.flatMap_def, ← List.flatMap_assoc, flatMap_ofFn_range]

theorem verifier_ciphertext (meets : exchange.EncryptionMeetsSpecification aes) :
    exchange.serverAfter.session.encryptedCt =
      (List.range (batchesOf (blocksOf (plaintext.length + 1)) * 16)).map (exchange.block aes) := by
  rcases Server.encryptBlocks_spec exchange.small exchange.inbox_eq _ _ exchange.served with
    ⟨outs, answered, after⟩
  have batches : outs.map (fun out => List.ofFn out.ct) =
      (List.range (batchesOf (blocksOf (plaintext.length + 1)))).map
        fun batch => List.ofFn fun j : Fin 16 => exchange.block aes (batch * 16 + j) := by
    apply map_eq_map_of_forall₂ answered
    rintro batch inRange out ⟨ran, agreed⟩
    have inBatches := List.mem_range.mp inRange
    have clock := congrArg Server.clock after
    simp only at clock
    have derived := (meets batch _ _ (exchange.proverInputs_getElem? inBatches)
      (exchange.verifierInputs_getElem? inBatches)).2 _ out (by omega) (by omega) ran
    rw [exchange.ct_eq_block derived agreed]
  rw [after]
  simp only [Server.outputBlocks]
  rw [List.flatMap_def, batches, ← List.flatMap_def, flatMap_ofFn_range]

end Ciphertext

section Tag

variable (exchange : RecordExchange plaintext innerType)

/-- The ciphertext of the record. -/
def ciphertext (aes : Block → Block → Block) : Bytes :=
  (((List.range (batchesOf (blocksOf (plaintext.length + 1)) * 16)).map
    (exchange.block aes)).flatMap List.ofFn).take (plaintext.length + 1)

/-- The verifier hashes the header and the ciphertext of the prover. -/
theorem tag_log (meets : exchange.EncryptionMeetsSpecification aes) :
    exchange.tagged.session.log =
      .tagCircuit exchange.ssl.writeSequence (Prover.recordHeader (plaintext.length + 1))
          (exchange.ciphertext aes) ::
        .message .gcmTag :: exchange.serverAfter.session.log := by
  have message : exchange.tagMessage = Prover.gcmTagMessage
      (Prover.recordHeader (plaintext.length + 1)) (plaintext.length + 1) := by
    have written := exchange.tagWritten
    rw [(Prover.encryptRequest_spec _ _ exchange.requested).sent,
      List.getElem?_append_right (Nat.le_add_right _ _), Nat.add_sub_cancel_left] at written
    exact (Option.some.inj written).symm
  rcases Server.encryptBlocks_spec exchange.small exchange.inbox_eq _ _ exchange.served with
    ⟨outs, _, after⟩
  have received : exchange.serverAfter.inbox = Prover.gcmTagMessage
      (Prover.recordHeader (plaintext.length + 1)) (plaintext.length + 1) ++ exchange.tagUnread := by
    rw [after, ← message, ← exchange.continued]
  have last : exchange.serverAfter.session.encryptedSeqs.getLast? =
      some exchange.ssl.writeSequence := by
    rw [after]
    simp
  have served := Server.serveMessage_gcmTag_log (by simp [Prover.recordHeader]) exchange.small
    received last _ _ exchange.tagServed
  rw [served, Server.storedCiphertext, exchange.verifier_ciphertext meets]
  rfl

def verifierTagIn (aes : Block → Block → Block) : GcmTagIn where
  keyShare := exchange.server.session.clientKeyShare
  iv := ctrBlock exchange.server.session.clientIv exchange.ssl.writeSequence 1
  tagShare := GHash.polynomial exchange.server.session.clientGcmPowers
    (Prover.recordHeader (plaintext.length + 1)) (exchange.ciphertext aes)
  maskOrUnused := fun _ => 0

theorem verifierTagInputs_eq (meets : exchange.EncryptionMeetsSpecification aes) :
    exchange.verifierTagInputs = [exchange.verifierTagIn aes] := by
  have added : exchange.tagged.session.log.length - exchange.serverAfter.session.log.length = 2 := by
    rw [exchange.tag_log meets, List.length_cons, List.length_cons]
    omega
  simp only [verifierTagInputs]
  rw [added, exchange.tag_log meets]
  rfl

end Tag

/-- Without the mask, the output of the tag circuit is the tag of GCM. -/
theorem stripped_tag (exchange : RecordExchange plaintext innerType)
    (shared : exchange.PowersShared aes) {aad ct : Bytes} {mask : Block} {out : GcmTagOut}
    (derived : out = deriveGcmTag aes
      { keyShare := exchange.ssl.clientKeyShare
        iv := ctrBlock (Prover.staticIv exchange.ssl.clientIv) exchange.ssl.writeSequence 1
        tagShare := GHash.polynomial exchange.ssl.cgcmShare aad ct
        maskOrUnused := mask }
      { keyShare := exchange.server.session.clientKeyShare
        iv := ctrBlock exchange.server.session.clientIv exchange.ssl.writeSequence 1
        tagShare := GHash.polynomial exchange.server.session.clientGcmPowers aad ct
        maskOrUnused := fun _ => 0 })
    (honest : out.cheated = false)
    (fits : blocksOf aad.length + blocksOf ct.length + 1 ≤ 1088) :
    (fun i => out.tag i ^^^ mask i) = Gcm.toOctets
      (Gcm.ghash (cipher aes exchange.key 0#128) (Gcm.ghashInput aad ct) ^^^
        cipher aes exchange.key (nonce (Prover.staticIv exchange.ssl.clientIv)
          exchange.ssl.writeSequence ++ 1#32)) := by
  subst derived
  have sameIv := of_decide_eq_false honest
  rw [not_not] at sameIv
  have zeroBlock : Gcm.toOctets 0#128 = fun _ => 0 := by
    decide
  have hashKey : cipher aes exchange.key 0#128 = Gcm.ofOctets (aes exchange.key fun _ => 0) := by
    rw [cipher, zeroBlock]
  have j0 : cipher aes exchange.key (nonce (Prover.staticIv exchange.ssl.clientIv)
      exchange.ssl.writeSequence ++ 1#32) = Gcm.ofOctets (aes exchange.key
        (ctrBlock (Prover.staticIv exchange.ssl.clientIv) exchange.ssl.writeSequence 1)) :=
    cipher_ctrBlock aes exchange.key _ _ 1
  rw [hashKey, j0, ← GHash.polynomial_xor_polynomial shared fits, ← Gcm.ofOctets_xor,
    Gcm.toOctets_ofOctets]
  funext i
  simp only [deriveGcmTag, if_pos sameIv]
  rw [UInt8.xor_assoc, UInt8.xor_self, UInt8.xor_zero, UInt8.xor_comm]
  rfl

/-- The record is the one of TLS 1.3 for the joint key and the prover's IV. -/
theorem record_eq_gcm (exchange : RecordExchange plaintext innerType)
    (encryption : exchange.EncryptionMeetsSpecification aes)
    (tag : exchange.TagMeetsSpecification aes) (shared : exchange.PowersShared aes) :
    let header := [23, 3, 3] ++ BigEndian.ofNat 2 (plaintext.length + 1 + 16)
    let (c, t) := Gcm.encrypt (cipher aes exchange.key)
      (nonce (Prover.staticIv exchange.ssl.clientIv) exchange.ssl.writeSequence)
      (plaintext ++ [innerType]) header
    exchange.record = header ++ c ++ List.ofFn (Gcm.toOctets t) := by
  intro header
  rcases (Prover.encryptRequest_spec _ _ exchange.requested).output with
    ⟨chunks, tagShare, mask, out, encrypted, hashed, tagged, honest, record⟩
  have clock := (Prover.encryptRequest_spec _ _ exchange.requested).clock
  have headerBytes : Prover.recordHeader (plaintext.length + 1) = header := rfl
  have ct : chunks.flatten.take (plaintext.length + 1) = exchange.ciphertext aes := by
    rw [exchange.prover_ciphertext encryption encrypted, ciphertext]
  have counterMode : exchange.ciphertext aes = Gcm.gctr (cipher aes exchange.key)
      (Gcm.inc32 (nonce (Prover.staticIv exchange.ssl.clientIv) exchange.ssl.writeSequence ++ 1#32))
      (plaintext ++ [innerType]) :=
    take_sealedBytes aes exchange.key _ _ plaintext innerType
  rw [ct, exchange.proverGhash, ghashShare] at hashed
  split_ifs at hashed with tooLong
  obtain rfl := Option.some.inj hashed
  have fed : exchange.verifierTagIn aes ∈ exchange.verifierTagInputs := by
    rw [exchange.verifierTagInputs_eq encryption]
    exact List.mem_singleton_self _
  have derived := tag _ fed _ _ out (by omega) (by omega) tagged
  have stripped := exchange.stripped_tag shared derived honest (by omega)
  rw [record, ct, stripped, headerBytes, counterMode]
  rfl

section Sample

def sampleText : Bytes := [71, 69, 84, 32, 47]

def sampleKeyShare (start : ℕ) : Block := fun i => UInt8.ofNat (start + 7 * i.val)

def sampleIv : Block := fun i => UInt8.ofNat (200 + i.val)

def sampleHashKey (aes : Block → Block → Block) : BitVec 128 :=
  arrToBlock (GHash.bitrev (aes (fun i => sampleKeyShare 43 i ^^^ sampleKeyShare 126 i) fun _ => 0))

/-- The power shares of the verifier are a counter. -/
def sampleSsl (aes : Block → Block → Block) : Prover.Ssl :=
  { Prover.Ssl.initial .masked with
    clientKeyShare := sampleKeyShare 43
    clientIv := sampleIv
    writeSequence := 3
    cgcmShare := GHash.table fun i => pow (sampleHashKey aes) (i.val + 1) ^^^ BitVec.ofNat 128 i.val }

def sampleServer : Server :=
  { Server.initial .masked with
    session := { (Server.initial .masked).session with
      clientKeyShare := sampleKeyShare 126
      clientIv := Prover.staticIv sampleIv
      clientGcmPowers := GHash.table fun i => BitVec.ofNat 128 i.val }
    circuits := fun _ => true
    inbox := BigEndian.ofNat 8 3 ++ (BigEndian.ofNat 4 6 ++
      (Prover.gcmTagMessage (Prover.recordHeader 6) 6 ++ [])) }

variable (aes : Block → Block → Block)

def sampleProverIn : AesEncBatchIn :=
  Prover.requestInput (sampleSsl aes) (Prover.innerPlaintext sampleText 23 1) 1 0

def sampleVerifierIn : AesEncBatchIn := Server.encryptInput sampleServer.session 3 1 0

def sampleBatchOut : AesEncBatchOut := deriveAesEncBatch aes (sampleProverIn aes) sampleVerifierIn

def sampleTagIn : GcmTagIn where
  keyShare := sampleKeyShare 126
  iv := ctrBlock sampleServer.session.clientIv 3 1
  tagShare := GHash.polynomial sampleServer.session.clientGcmPowers (Prover.recordHeader 6)
    (((List.ofFn (sampleBatchOut aes).ct).flatMap List.ofFn).take 6)
  maskOrUnused := fun _ => 0

def sampleProverEnv : Prover.Environment :=
  { Prover.Environment.cooperative with
    aesEncBatch := fun _ _ => some (sampleBatchOut aes)
    gcmTag := fun _ input => some (deriveGcmTag aes input (sampleTagIn aes))
    ghash := GHash.polynomial }

def sampleVerifierEnv : Environment :=
  { Environment.cooperative [] 0 with
    aesEncBatch := fun _ _ => some (sampleBatchOut aes)
    ghash := GHash.polynomial }

theorem sample_agreed : (sampleBatchOut aes).ok = true :=
  decide_eq_true rfl

theorem sampleProverEnv_cooperates : (sampleProverEnv aes).Cooperates
    (ctrBlock (Prover.staticIv (sampleSsl aes).clientIv) (sampleSsl aes).writeSequence 1) where
  writes _ := rfl
  encrypts _ _ := ⟨_, rfl, sample_agreed aes⟩
  tags _ _ sameIv := ⟨_, rfl, decide_eq_false (not_not.mpr sameIv)⟩

theorem sample_served : ∃ serverAfter tagged,
    Server.encryptBlocks (sampleVerifierEnv aes) sampleServer = (.returned (), serverAfter) ∧
      Server.serveMessage (sampleVerifierEnv aes) serverAfter = (.returned (), tagged) := by
  have received : sampleServer.inbox = BigEndian.ofNat 8 (3 : UInt64).toNat ++ (BigEndian.ofNat 4 6 ++
      (Prover.gcmTagMessage (Prover.recordHeader 6) 6 ++ [])) := rfl
  have fresh : (3 : UInt64) ∉ sampleServer.session.encryptedSeqs := List.not_mem_nil
  have encrypts : Returns (Server.encryptBlocks (sampleVerifierEnv aes)) sampleServer :=
    Server.returns_encryptBlocks (fun _ _ => ⟨_, rfl, sample_agreed aes⟩) rfl fresh (by decide)
      (by decide) received
  rcases encrypts with ⟨_, serverAfter, served⟩
  rcases Server.encryptBlocks_spec (by decide) received _ _ served with ⟨outs, answered, after⟩
  have inbox : serverAfter.inbox = MessageHeader.toByte .gcmTag ::
      (BigEndian.ofNat 2 (Prover.recordHeader 6).length ++
        (Prover.recordHeader 6 ++ (BigEndian.ofNat 4 6 ++ []))) := by
    rw [after]
    rfl
  have circuits : serverAfter.circuits .gcmTag = true := by
    rw [after]
    rfl
  have stored : serverAfter.session.encryptedCt ≠ [] := by
    rw [after]
    apply List.ne_nil_of_length_pos
    rw [Server.length_outputBlocks, ← answered.length_eq]
    decide
  have announced : serverAfter.session.encryptCtLen = 6 := by
    rw [after]
  have last : serverAfter.session.encryptedSeqs.getLast? = some 3 := by
    rw [after]
    rfl
  have tags : Returns (Server.serveMessage (sampleVerifierEnv aes)) serverAfter := by
    apply Server.returns_serveMessage rfl inbox
    exact Server.returns_makeGcmTag (fun _ _ => ⟨_, rfl, rfl⟩) circuits rfl (by decide) rfl
      announced stored last
  rcases tags with ⟨_, tagged, tagServed⟩
  exact ⟨serverAfter, tagged, served, tagServed⟩

theorem exists_sample : ∃ exchange : RecordExchange sampleText 23,
    exchange.EncryptionMeetsSpecification aes ∧ exchange.TagMeetsSpecification aes ∧
      exchange.PowersShared aes := by
  have short : sampleText.length ≤ 1023 := by
    decide
  rcases Prover.returns_encryptRequest 23 (sampleProverEnv_cooperates aes) short
    ⟨rfl, rfl, rfl⟩ with ⟨record, sslAfter, requested⟩
  rcases sample_served aes with ⟨serverAfter, tagged, served, tagServed⟩
  have sent := (Prover.encryptRequest_spec _ _ requested).sent
  let exchange : RecordExchange sampleText 23 :=
    { proverEnv := sampleProverEnv aes
      verifierEnv := sampleVerifierEnv aes
      ssl := sampleSsl aes
      sslAfter, record, requested
      message := Prover.aesEncMessage 3 6
      written := by rw [sent]; rfl
      server := sampleServer
      serverAfter
      unread := Prover.gcmTagMessage (Prover.recordHeader 6) 6 ++ []
      received := rfl
      served
      proverGhash := rfl
      verifierGhash := rfl
      tagMessage := Prover.gcmTagMessage (Prover.recordHeader 6) 6
      tagWritten := by rw [sent]; rfl
      tagUnread := []
      continued := rfl
      tagged, tagServed }
  have proverInputs : exchange.proverInputs = [sampleProverIn aes] := exchange.proverInputs_eq
  have verifierInputs : exchange.verifierInputs = [sampleVerifierIn] := exchange.verifierInputs_eq
  have encryption : exchange.EncryptionMeetsSpecification aes := by
    intro batch a b fedA fedB
    rw [proverInputs] at fedA
    rw [verifierInputs] at fedB
    cases batch with
    | zero =>
        cases fedA
        cases fedB
        exact ⟨fun _ _ _ _ answered => (Option.some.inj answered).symm,
          fun _ _ _ _ answered => (Option.some.inj answered).symm⟩
    | succ => cases fedA
  have blocks : List.ofFn (sampleBatchOut aes).ct = (List.range 16).map (exchange.block aes) := by
    have slots := flatMap_ofFn_range (exchange.block aes) 1
    have ct : (sampleBatchOut aes).ct = fun j : Fin 16 => exchange.block aes (0 * 16 + j) :=
      exchange.ct_eq_block rfl (sample_agreed aes)
    rw [ct]
    rw [List.range_one, List.flatMap_singleton] at slots
    exact slots
  have tagIn : exchange.verifierTagIn aes = sampleTagIn aes := by
    rw [sampleTagIn, blocks]
    rfl
  refine ⟨exchange, encryption, ?_, ?_⟩
  · intro b fed a now out _ _ answered
    rw [exchange.verifierTagInputs_eq encryption, List.mem_singleton, tagIn] at fed
    rw [fed]
    exact (Option.some.inj answered).symm
  · intro i inTable
    have ofProver := GHash.power_table (fun i => pow (sampleHashKey aes) (i.val + 1) ^^^
      BitVec.ofNat 128 i.val) inTable
    have ofVerifier := GHash.power_table (fun i => BitVec.ofNat 128 i.val) inTable
    have sum : GHash.power (sampleSsl aes).cgcmShare i ^^^
        GHash.power sampleServer.session.clientGcmPowers i = pow (sampleHashKey aes) (i + 1) := by
      rw [sampleSsl, sampleServer, ofProver, ofVerifier, BitVec.xor_assoc, BitVec.xor_self,
        BitVec.xor_zero]
    exact sum

/-- The record of `GET /` under AES-128. -/
theorem record_eq_gcm_sample : ∃ exchange : RecordExchange sampleText 23,
    let header := [23, 3, 3] ++ BigEndian.ofNat 2 22
    let (c, t) := Gcm.encrypt (cipher Aes.encrypt exchange.key)
      (nonce (Prover.staticIv exchange.ssl.clientIv) exchange.ssl.writeSequence)
      [71, 69, 84, 32, 47, 23] header
    exchange.record = header ++ c ++ List.ofFn (Gcm.toOctets t) := by
  rcases exists_sample Aes.encrypt with ⟨exchange, encryption, tag, shared⟩
  exact ⟨exchange, exchange.record_eq_gcm encryption tag shared⟩

end Sample

end RecordExchange

end PracticalCrypto.Surf
