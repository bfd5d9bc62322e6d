import PracticalCrypto.Surf.Server.Runs

/-!
# Keystream for verified records

In the masked mode the prover opens a record with keystream that the verifier
derives with it. `derive_keystream_blocks` takes the length of each record from
the request and compares only the sequence number with the verified records, so
the blocks it serves are those of the verified ciphertext exactly as long as no
request overstates a length.
-/

namespace PracticalCrypto.Surf

open BlockMap EventLog Session

namespace Event

def servedSlots : Event → List Slot
  | .keystreamBatch slots => slots
  | _ => []

def requestedRecords : Event → List RecordDims
  | .keystreamRequest records => records
  | _ => []

def passedCiphertext (seq : UInt64) : Event → Option Bytes
  | .tagPassed passedSeq ciphertext => if passedSeq = seq then some ciphertext else none
  | _ => none

end Event

/-- The ciphertexts that have passed the tag check on this connection under a sequence number. -/
def verifiedCiphertexts (seq : UInt64) (log : List Event) : List Bytes :=
  (currentConnection log).filterMap (Event.passedCiphertext seq)

/-- The keystream circuit is run on blocks of ciphertext that has passed its tag check. -/
def KeystreamCovered (older : List Event) (event : Event) : Prop :=
  ∀ slot ∈ event.servedSlots, slot.padding = false →
    ∃ ciphertext ∈ verifiedCiphertexts slot.seq older,
      2 ≤ slot.counter.toNat ∧ slot.counter.toNat - 2 < blocksOf ciphertext.length

/-- A request asks for no more blocks of a verified record than its ciphertext has. -/
def RequestsWithinRecords (older : List Event) (event : Event) : Prop :=
  ∀ entry ∈ event.requestedRecords, verifiedCiphertexts entry.seq older ≠ [] →
    ∃ ciphertext ∈ verifiedCiphertexts entry.seq older,
      blocksOf entry.ctLen.toNat ≤ blocksOf ciphertext.length

instance (older : List Event) (event : Event) : Decidable (KeystreamCovered older event) :=
  inferInstanceAs (Decidable (∀ slot ∈ event.servedSlots, _ → ∃ ciphertext ∈ _, _))

instance (older : List Event) (event : Event) : Decidable (RequestsWithinRecords older event) :=
  inferInstanceAs (Decidable (∀ entry ∈ event.requestedRecords, _ → ∃ ciphertext ∈ _, _))

theorem verifiedCiphertexts_cons {event : Event} (seq : UInt64) (log : List Event)
    (other : event.isConnection = false) :
    verifiedCiphertexts seq (event :: log) =
      (event.passedCiphertext seq).toList ++ verifiedCiphertexts seq log := by
  rw [verifiedCiphertexts, currentConnection_cons log other, List.filterMap_cons]
  rcases event.passedCiphertext seq with _ | ciphertext
  · rfl
  · rfl

theorem toNat_counter {ctLen : UInt32} {position : ℕ}
    (inRecord : position < blocksOf ctLen.toNat) :
    (UInt32.ofNat position + 2).toNat = position + 2 := by
  -- a record is too short for its counter to wrap
  have bounded : ctLen.toNat < 2 ^ 32 := ctLen.toNat_lt
  rw [blocksOf] at inRecord
  have small : position + 2 < 2 ^ 32 := by omega
  have start : (2 : UInt32).toNat = 2 := rfl
  rw [UInt32.toNat_add, UInt32.toNat_ofNat', start, Nat.mod_add_mod, Nat.mod_eq_of_lt small]

/-- While its batches are served, a request sees the tag checks that it saw when it arrived. -/
theorem Requested.exists_request {records : List RecordDims} {log : List Event}
    (requested : Requested records log) :
    ∃ older, .keystreamRequest records :: older <:+ log ∧
      ∀ seq, verifiedCiphertexts seq log = verifiedCiphertexts seq older := by
  rcases requested with ⟨batches, older, rfl, served⟩
  refine ⟨older, List.suffix_append _ _, fun seq => ?_⟩
  induction batches with
  | nil => exact verifiedCiphertexts_cons seq older rfl
  | cons batch batches ih =>
      rcases served batch List.mem_cons_self with ⟨slots, rfl⟩
      have earlier := ih fun event member => served event (List.mem_cons_of_mem _ member)
      rw [← earlier]
      exact verifiedCiphertexts_cons seq _ rfl

namespace Session

/-- The verified sequence numbers have passed their check, and the keystream is covered. -/
structure KeystreamInvariant (s : Session) : Prop where
  verified : ∀ seq ∈ s.verifiedSeqs, verifiedCiphertexts seq s.log ≠ []
  covered : Justified RequestsWithinRecords s.log → Justified KeystreamCovered s.log

variable {s t : Session}

namespace KeystreamInvariant

theorem keep (inv : KeystreamInvariant s) (same : t.verifiedSeqs = s.verifiedSeqs)
    (log : t.log = s.log) : KeystreamInvariant t := by
  refine ⟨?_, ?_⟩
  · rw [same, log]
    exact inv.verified
  · rw [log]
    exact inv.covered

theorem push {event : Event} (inv : KeystreamInvariant s) (fewer : t.verifiedSeqs ⊆ s.verifiedSeqs)
    (log : t.log = event :: s.log) (other : event.isConnection = false)
    (allowed : Justified RequestsWithinRecords s.log → KeystreamCovered s.log event) :
    KeystreamInvariant t := by
  refine ⟨fun seq member => ?_, ?_⟩
  · rw [log, verifiedCiphertexts_cons seq s.log other]
    exact List.append_ne_nil_of_right_ne_nil _ (inv.verified seq (fewer member))
  · rw [log]
    exact Justified.cons_of_imp inv.covered fun met _ => allowed met.tail

theorem attest (inv : KeystreamInvariant s) (seq : UInt64) (ciphertext : Bytes) :
    KeystreamInvariant (Server.attestRecord seq ciphertext s) := by
  have pushed : KeystreamInvariant { s with log := .tagPassed seq ciphertext :: s.log } :=
    inv.push (List.Subset.refl _) rfl rfl fun _ => nofun
  refine ⟨fun other member => ?_, pushed.covered⟩
  change _ ∈ s.verifiedSeqs ++ [seq] at member
  rcases List.mem_append.mp member with earlier | added
  · exact pushed.verified other earlier
  · cases List.mem_singleton.mp added
    change verifiedCiphertexts seq (.tagPassed seq ciphertext :: s.log) ≠ []
    rw [verifiedCiphertexts_cons seq s.log rfl, Event.passedCiphertext, if_pos rfl]
    exact List.cons_ne_nil _ _

theorem batch_covered (inv : KeystreamInvariant s) {records : List RecordDims}
    {slots : List Slot} (requested : Requested records s.log)
    (verified : ∀ entry ∈ records, entry.seq ∈ s.verifiedSeqs)
    (covered : ∀ slot ∈ slots, slot.padding = false →
      ∃ entry ∈ records, ∃ position < blocksOf entry.ctLen.toNat,
        slot.seq = entry.seq ∧ slot.counter = UInt32.ofNat position + 2)
    (within : Justified RequestsWithinRecords s.log) :
    KeystreamCovered s.log (.keystreamBatch slots) := by
  intro slot inBatch notPadding
  rcases covered slot inBatch notPadding with
    ⟨entry, listed, position, inRecord, sameSeq, sameCounter⟩
  rcases requested.exists_request with ⟨older, suffix, samePassed⟩
  have known := inv.verified entry.seq (verified entry listed)
  rw [samePassed] at known
  rcases within.permitted_of_suffix suffix entry listed known with ⟨ciphertext, passed, bounded⟩
  refine ⟨ciphertext, ?_, ?_⟩
  · rw [sameSeq, samePassed]
    exact passed
  · rw [sameCounter, toNat_counter inRecord]
    omega

theorem note {event : Event} (inv : KeystreamInvariant s) (plain : event.isPlain = true) :
    KeystreamInvariant { s with log := event :: s.log } := by
  cases event with
  | message header => exact inv.push (List.Subset.refl _) rfl rfl fun _ => nofun
  | aesEncBatch seq ctr => exact inv.push (List.Subset.refl _) rfl rfl fun _ => nofun
  | keystreamRequest records => exact inv.push (List.Subset.refl _) rfl rfl fun _ => nofun
  | verifyRequest seq => exact inv.push (List.Subset.refl _) rfl rfl fun _ => nofun
  | _ => cases plain

theorem operation (inv : KeystreamInvariant s) (operation : Operation s t) :
    KeystreamInvariant t := by
  cases operation with
  | note event plain => exact inv.note plain
  | encrypting => exact inv.keep rfl rfl
  | readAad => exact inv.keep rfl rfl
  | attest seq ciphertext _ => exact inv.attest seq ciphertext
  | keystream records slots requested verified covered =>
      exact inv.push (List.Subset.refl _) rfl rfl (inv.batch_covered requested verified covered)
  | rotate out direction _ =>
      cases direction with
      | client => exact inv.push (List.Subset.refl _) rfl rfl fun _ => nofun
      | server => exact inv.push (List.Subset.refl _) rfl rfl fun _ => nofun
  | restart powers direction _ =>
      cases direction with
      | client => exact inv.push (List.Subset.refl _) rfl rfl fun _ => nofun
      | server => exact inv.push (List.nil_subset _) rfl rfl fun _ => nofun
  | _ => exact inv.push (List.Subset.refl _) rfl rfl fun _ => nofun

theorem step (inv : KeystreamInvariant s) (step : Step s t) : KeystreamInvariant t := by
  cases step with
  | operation operation => exact inv.operation operation
  | connect => exact ⟨nofun, Justified.cons_of_imp inv.covered fun _ _ => nofun⟩
  | rekey => exact inv.keep rfl rfl
  | _ => exact inv.push (List.Subset.refl _) rfl rfl fun _ => nofun

end KeystreamInvariant

end Session

namespace Server

theorem Fresh.keystreamInvariant {server : Server} (fresh : Fresh server) :
    KeystreamInvariant server.session := by
  refine ⟨?_, ?_⟩
  · rw [fresh.verifiedSeqs_eq]
    exact nofun
  · rw [fresh.log_eq]
    exact fun _ => .nil

/--
Keystream is released for verified ciphertext alone in every run whose requests
stay within the verified records, whatever else the provers send.
-/
theorem performAll_keystreamCovered (env : Environment) (calls : List Call) {server : Server}
    (fresh : Fresh server)
    (within : Justified RequestsWithinRecords (performAll env calls server).session.log) :
    Justified KeystreamCovered (performAll env calls server).session.log :=
  (performAll_invariant env calls fresh.keystreamInvariant
    fun _ _ step inv => KeystreamInvariant.step inv step).covered within

def keystreamMessage (ctLen : UInt8) : Bytes :=
  MessageHeader.toByte .ksDerive ::
    ([0, 0, 0, 1] ++ List.replicate 8 0 ++ [0, 0, 0, ctLen])

def keystreamMessages (ctLen : UInt8) : Bytes :=
  verifyMessage ++ keystreamMessage ctLen ++ [MessageHeader.toByte .stop]

theorem servedOnce_keystreamCovered :
    (servedOnce .masked false (keystreamMessages 1)).session.verifiedSeqs = [0] ∧
      Justified KeystreamCovered
        (servedOnce .masked false (keystreamMessages 1)).session.log := by
  have within : Justified RequestsWithinRecords
      (servedOnce .masked false (keystreamMessages 1)).session.log := by decide +kernel
  refine ⟨by decide +kernel, ?_⟩
  rw [servedOnce] at within ⊢
  exact performAll_keystreamCovered _ _ (fresh_initial .masked) within

/-- A request for 32 bytes of the verified record of one byte is served. -/
theorem servedOnce_not_keystreamCovered :
    ¬Justified KeystreamCovered
      (servedOnce .masked false (keystreamMessages 32)).session.log := by
  decide +kernel

end Server

end PracticalCrypto.Surf
