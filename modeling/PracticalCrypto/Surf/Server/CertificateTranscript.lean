import PracticalCrypto.Library.Hkdf
import PracticalCrypto.Surf.Server.Runs
import PracticalCrypto.Surf.Server.Survival

/-!
# The transcript that the prover forwards

After the certificate of the origin has arrived, the prover forwards what it read
in one message, with a hash of its share of the server key at the end. The verifier
reads the header and the declared size, and then one record: it stops as soon as no
record is partly read. What it reads is added to the transcript of the connections
before, and the declared size is only used to reserve memory.
-/

namespace PracticalCrypto.Surf

/-- The message of `commit_to_server_certificate`. The size that it declares is the one of `hs_buf`,
the bytes that follow are those of `read_buffer`. -/
def commitToServerCertificate (hsBufLength : ℕ) (readBuffer serverKeyShare : Bytes) : Bytes :=
  MessageHeader.toByte .certificateCtxSend ::
    (BigEndian.ofNat 8 hsBufLength ++ readBuffer ++ Hkdf.sha256 serverKeyShare)

section Records

/-- What is left of the records of a connection after some of their bytes were read. -/
def afterBytes : ℕ → List Bytes → List Bytes
  | _, [] => []
  | count, record :: later =>
      if count < record.length then record.drop count :: later
      else afterBytes (count - record.length) later

theorem flatten_afterBytes (count : ℕ) (records : List Bytes) :
    (afterBytes count records).flatten = records.flatten.drop count := by
  induction records generalizing count with
  | nil => simp [afterBytes]
  | cons record later ih =>
      simp only [afterBytes]
      split_ifs with inside
      · simp [List.drop_append_of_le_length (Nat.le_of_lt inside)]
      · have passed : record.drop count = [] := List.drop_eq_nil_of_le (by omega)
        simp [ih, List.drop_append, passed]

theorem length_le_of_mem_afterBytes {bound count : ℕ} {records : List Bytes}
    (short : ∀ record ∈ records, record.length ≤ bound) :
    ∀ record ∈ afterBytes count records, record.length ≤ bound := by
  induction records generalizing count with
  | nil => simp [afterBytes]
  | cons first later ih =>
      rcases List.forall_mem_cons.mp short with ⟨firstShort, laterShort⟩
      simp only [afterBytes]
      split_ifs with inside
      · apply List.forall_mem_cons.mpr ⟨?_, laterShort⟩
        simp only [List.length_drop]
        omega
      · exact ih laterShort

/-- The rest of the record that the next read takes from. -/
def currentRecord (count : ℕ) (records : List Bytes) : Bytes := (afterBytes count records).headD []

theorem length_currentRecord_le {bound count : ℕ} {records : List Bytes}
    (short : ∀ record ∈ records, record.length ≤ bound) :
    (currentRecord count records).length ≤ bound := by
  have leftShort : ∀ record ∈ afterBytes count records, record.length ≤ bound :=
    length_le_of_mem_afterBytes short
  unfold currentRecord
  cases left : afterBytes count records with
  | nil => exact Nat.zero_le bound
  | cons record later =>
      apply leftShort
      simp [left]

theorem exists_drop_eq_currentRecord_append (count : ℕ) (records : List Bytes) :
    ∃ later, records.flatten.drop count = currentRecord count records ++ later := by
  refine ⟨(afterBytes count records).tail.flatten, ?_⟩
  rw [← flatten_afterBytes, currentRecord]
  cases afterBytes count records <;> simp

end Records

namespace Server

open Handler

/-- The transport hands out this record: a read takes as much of it as the buffer holds. -/
structure HandsOut (env : Environment) (clock : ℕ) (record : Bytes) : Prop where
  readSize_eq : env.readSize clock = record.length

variable {env : Environment} {s : Server} {record later : Bytes}

theorem ensures_readSome_record (short : record.length ≤ maxPlainLength)
    (size : env.readSize s.clock = record.length) (received : s.inbox = record ++ later) :
    Ensures (readSome env)
      (fun bytes after => bytes = record ∧ Idle after ∧ after.transcript = s.transcript) s := by
  apply Ensures.bind
  refine ensures_tick.mono ?_
  rintro _ _ ⟨rfl, rfl⟩
  apply Ensures.get_bind
  apply Ensures.require_bind
  intro _
  apply Ensures.modify_bind
  apply Ensures.pure
  simp [Idle, size, received, min_eq_left short]

theorem ensures_reserveTranscript (size : UInt64) :
    Ensures (reserveTranscript env size)
      (fun _ after => after = { s with clock := s.clock + 1 }) s := by
  apply Ensures.get_bind
  apply Ensures.bind
  refine ensures_tick.mono ?_
  rintro _ _ ⟨rfl, rfl⟩
  apply Ensures.ite
  · intro _
    exact Ensures.pure rfl
  · intro _
    exact Ensures.abort

/-- The loop reads one record: nothing of it is pending after the first read. -/
theorem ensures_readTranscript (fuel : ℕ) (short : record.length ≤ maxPlainLength)
    (handsOut : HandsOut env s.clock record) (received : s.inbox = record ++ later) :
    Ensures (readTranscript env (fuel + 1))
      (fun _ after => after.transcript = s.transcript ++ record) s := by
  apply Ensures.bind
  refine (ensures_readSome_record short handsOut.readSize_eq received).mono ?_
  rintro bytes read ⟨rfl, idle, transcript⟩
  apply Ensures.modify_bind
  apply Ensures.bind
  have idleStill : Idle { read with transcript := read.transcript ++ bytes } := idle
  refine (survives_pending idleStill).ensures.mono ?_
  rintro _ _ ⟨rfl, rfl⟩
  apply Ensures.pure
  simp [transcript]

/-- What `do_cert_wait` leaves behind is what it found and one record, cut 32 bytes before the
end. -/
theorem ensures_doCertWait_record (full : s.session.resumedHandshake = false)
    (short : record.length ≤ maxPlainLength) (handsOut : HandsOut env (s.clock + 1) record)
    (received : s.inbox.drop 9 = record ++ later) :
    Ensures (doCertWait env)
      (fun _ after => after.serverKeyComm.length = 32 ∧
        after.transcript ++ after.serverKeyComm = s.transcript ++ record) s := by
  apply Ensures.get_bind
  rw [if_neg (by simp [full])]
  apply Ensures.bind
  refine survives_readSingleHeader.ensures.mono ?_
  rintro header _ rfl
  apply Ensures.require_bind
  intro _
  apply Ensures.bind
  refine survives_readU64.ensures.mono ?_
  rintro size _ ⟨-, rfl⟩
  apply Ensures.bind
  refine (ensures_reserveTranscript size).mono ?_
  rintro _ _ rfl
  apply Ensures.get_bind
  apply Ensures.bind
  have unread : (s.inbox.drop 1).drop 8 = record ++ later := by simpa using received
  refine (ensures_readTranscript _ short handsOut unread).mono ?_
  intro _ read transcript
  apply Ensures.get_bind
  apply Ensures.require_bind
  intro enough
  apply Ensures.modify_bind
  apply Ensures.modify
  refine ⟨?_, ?_⟩
  · simp only [List.length_drop]
    omega
  · rw [List.take_append_drop]
    exact transcript

/-- The verifier of a full handshake, whatever happened to its `Server` before, has exactly the
forwarded bytes and the hash if and only if the earlier transcript and the record in which the
payload begins make up these bytes, and `hs_buf` had the size of the payload. -/
theorem doCertWait_faithful_iff {hsBufLength : ℕ} {readBuffer serverKeyShare later : Bytes}
    {records : List Bytes} {after : Server}
    (full : s.session.resumedHandshake = false)
    (received : s.inbox = commitToServerCertificate hsBufLength readBuffer serverKeyShare ++ later)
    (delivered : s.inbox = records.flatten)
    (short : ∀ record ∈ records, record.length ≤ maxPlainLength)
    (handsOut : HandsOut env (s.clock + 1) (currentRecord 9 records))
    (succeeded : doCertWait env s = (.returned (), after)) :
    (after.transcript = readBuffer ∧ after.serverKeyComm = Hkdf.sha256 serverKeyShare ∧
        BigEndian.toNat ((s.inbox.drop 1).take 8) = readBuffer.length) ↔
      s.transcript ++ currentRecord 9 records = readBuffer ++ Hkdf.sha256 serverKeyShare ∧
        hsBufLength % 2 ^ 64 = readBuffer.length := by
  rcases exists_drop_eq_currentRecord_append 9 records with ⟨unread, split⟩
  rw [← delivered] at split
  rcases ensures_doCertWait_record full (length_currentRecord_le short) handsOut split _ _ succeeded
    with ⟨commLength, joined⟩
  have declared : BigEndian.toNat ((s.inbox.drop 1).take 8) = hsBufLength % 2 ^ 64 := by
    simp [received, commitToServerCertificate, BigEndian.toNat_ofNat]
  rw [declared, ← joined, ← and_assoc]
  apply and_congr_left'
  constructor
  · rintro ⟨transcript, comm⟩
    rw [transcript, comm]
  · intro same
    exact List.append_inj' same (commLength.trans (Hkdf.length_sha256 serverKeyShare).symm)

section Concrete

/-- A prover up to the forwarded transcript, with key shares in records of 35 bytes. -/
def forwardingMessages (message : Bytes) : Bytes :=
  MessageHeader.toByte .collect :: ([0, 23, 0, 30] ++ List.replicate 30 0) ++
    MessageHeader.toByte .serverKeyShare :: ([0, 23, 0, 30] ++ List.replicate 30 0) ++
    [MessageHeader.toByte .hsModeFull, MessageHeader.toByte .doEctf] ++ message

/-- A `Server` that serves connections up to `CERT_RECV`, each with this message. -/
def forwardedTo (message : Bytes) (connections : ℕ) : Server :=
  performAll (Environment.cooperative (forwardingMessages message) 35)
    (List.replicate connections (.run .certRecv true)) (Server.initial .trueSurf)

/-- A new `Server` that has read everything before the forwarded transcript. -/
def firstForwarded : Server :=
  { Server.initial .trueSurf with inbox := commitToServerCertificate 3 [1, 2, 3] [] }

/-- The first connection of a new `Server`, when the payload and the hash arrive in one record. -/
theorem doCertWait_faithful_first :
    ∃ after, doCertWait (Environment.cooperative [] 35) firstForwarded = (.returned (), after) ∧
      after.transcript = [1, 2, 3] ∧ after.serverKeyComm = Hkdf.sha256 [] := by
  have returned :
      (doCertWait (Environment.cooperative [] 35) firstForwarded).1 = .returned () := by
    decide +kernel
  have received : firstForwarded.inbox = commitToServerCertificate 3 [1, 2, 3] [] ++ [] := by
    simp [firstForwarded]
  have delivered :
      firstForwarded.inbox = [commitToServerCertificate 3 [1, 2, 3] []].flatten := by
    simp [firstForwarded]
  have current : currentRecord 9 [commitToServerCertificate 3 [1, 2, 3] []] =
      [1, 2, 3] ++ Hkdf.sha256 [] := by
    decide +kernel
  have faithful := (doCertWait_faithful_iff rfl received delivered (by decide +kernel)
    ⟨by decide +kernel⟩ (Prod.ext returned rfl)).mpr ⟨current, rfl⟩
  exact ⟨_, Prod.ext returned rfl, faithful.1, faithful.2.1⟩

/-- The second connection of a `Server` has the payloads of both; a payload that does not fit the
record is cut, and its hash is not the commitment; and a wrong size is not noticed. -/
theorem forwardedTo_unfaithful :
    (forwardedTo (commitToServerCertificate 3 [1, 2, 3] []) 1).transcript = [1, 2, 3] ∧
      (forwardedTo (commitToServerCertificate 3 [1, 2, 3] []) 2).state = .certRecv ∧
      (forwardedTo (commitToServerCertificate 3 [1, 2, 3] []) 2).transcript = [1, 2, 3, 1, 2, 3] ∧
      (forwardedTo (commitToServerCertificate 4 [1, 2, 3, 4] []) 1).state = .certRecv ∧
      (forwardedTo (commitToServerCertificate 4 [1, 2, 3, 4] []) 1).transcript = [1, 2, 3] ∧
      (forwardedTo (commitToServerCertificate 4 [1, 2, 3, 4] []) 1).serverKeyComm ≠
        Hkdf.sha256 [] ∧
      (forwardedTo (commitToServerCertificate 5 [1, 2, 3] []) 1).state = .certRecv ∧
      (forwardedTo (commitToServerCertificate 5 [1, 2, 3] []) 1).transcript = [1, 2, 3] := by
  decide +kernel

end Concrete

end Server

end PracticalCrypto.Surf
