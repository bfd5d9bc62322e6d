import PracticalCrypto.Surf.Server.Runs

/-!
# Tags under one nonce

The tag circuit masks the GHASH value with the key and the nonce of the record
encrypted last. `encrypt_blocks` refuses a sequence number that was used under
the current client key, but `make_gcm_tag` does not note that the record has its
tag, so a second `GCM_TAG` message runs the circuit again under the same nonce.
A tag per nonce is what the prover gets as long as it encrypts between two such
messages.
-/

namespace PracticalCrypto.Surf

open EventLog Session

namespace Event

/-- A new client key: a new connection or a completed client rotation. -/
def startsClientEpoch : Event → Bool
  | .connection => true
  | .rotated .client => true
  | _ => false

def tagSeq : Event → Option UInt64
  | .tagCircuit seq _ _ => some seq
  | _ => none

def isEncrypted : Event → Bool
  | .encrypted _ => true
  | _ => false

def asksTag : Event → Bool
  | .message .gcmTag => true
  | _ => false

/-- The event says nothing about encryption, tags and the client key. -/
structure Unrelated (event : Event) : Prop where
  inEpoch : event.startsClientEpoch = false
  noTag : event.tagSeq = none
  notEncrypted : event.isEncrypted = false
  notAsking : event.asksTag = false

end Event

def clientEpoch (log : List Event) : List Event := since Event.startsClientEpoch log

theorem clientEpoch_cons {event : Event} (log : List Event)
    (inEpoch : event.startsClientEpoch = false) :
    clientEpoch (event :: log) = event :: clientEpoch log :=
  since_cons_other inEpoch

/-- The tag circuit is run with a nonce that it was not run with under this key. -/
def TagNonceFresh (older : List Event) (event : Event) : Prop :=
  ∀ seq ∈ event.tagSeq, ∀ earlier ∈ clientEpoch older, earlier.tagSeq ≠ some seq

/-- A `GCM_TAG` message that is not the first under its key follows a new encryption. -/
def EncryptsBetweenTags (older : List Event) (event : Event) : Prop :=
  event.asksTag = true → (∃ earlier ∈ clientEpoch older, earlier.asksTag = true) →
    ∃ between ∈ since Event.asksTag older, between.isEncrypted = true

instance (older : List Event) (event : Event) : Decidable (TagNonceFresh older event) :=
  -- named, because the sequence numbers could also be enumerated
  Option.decidableForallMem event.tagSeq

instance (older : List Event) (event : Event) : Decidable (EncryptsBetweenTags older event) :=
  inferInstanceAs (Decidable (_ → (∃ earlier ∈ clientEpoch older, _) → ∃ between ∈ _, _))

namespace Session

/-- The record encrypted last has no tag yet. -/
def LastUntagged (s : Session) : Prop :=
  ∀ seq ∈ s.encryptedSeqs.getLast?, ∀ event ∈ clientEpoch s.log, event.tagSeq ≠ some seq

/--
Tags belong to encrypted records and answer a message. The record encrypted last
has no tag before the first message of the epoch, and once more after each new
encryption.
-/
structure TagInvariant (s : Session) : Prop where
  encrypted : ∀ event ∈ clientEpoch s.log, ∀ seq ∈ event.tagSeq, seq ∈ s.encryptedSeqs
  asked : ∀ event ∈ clientEpoch s.log, event.tagSeq.isSome = true →
    ∃ earlier ∈ clientEpoch s.log, earlier.asksTag = true
  untagged : (∃ event ∈ since Event.asksTag s.log, event.isEncrypted = true) → LastUntagged s
  answering : Justified EncryptsBetweenTags s.log →
    (∃ event ∈ s.log.head?, event.asksTag = true) → LastUntagged s
  fresh : Justified EncryptsBetweenTags s.log → Justified TagNonceFresh s.log

variable {s t : Session}

theorem LastUntagged.push {event : Event} (untagged : LastUntagged s)
    (same : t.encryptedSeqs = s.encryptedSeqs) (log : t.log = event :: s.log)
    (inEpoch : event.startsClientEpoch = false) (noTag : event.tagSeq = none) :
    LastUntagged t := by
  intro seq last other member
  rw [same] at last
  rw [log, clientEpoch_cons _ inEpoch] at member
  rcases List.mem_cons.mp member with rfl | earlier
  · rw [noTag]
    exact nofun
  · exact untagged seq last other earlier

namespace TagInvariant

theorem keep (inv : TagInvariant s) (same : t.encryptedSeqs = s.encryptedSeqs)
    (log : t.log = s.log) : TagInvariant t := by
  have sameLast : LastUntagged t ↔ LastUntagged s := by
    rw [LastUntagged, LastUntagged, same, log]
  refine ⟨?_, ?_, ?_, ?_, ?_⟩
  · rw [same, log]
    exact inv.encrypted
  · rw [log]
    exact inv.asked
  · rw [log, sameLast]
    exact inv.untagged
  · rw [log, sameLast]
    exact inv.answering
  · rw [log]
    exact inv.fresh

theorem untagged_of_not_asked (inv : TagInvariant s)
    (notAsked : ¬∃ earlier ∈ clientEpoch s.log, earlier.asksTag = true) : LastUntagged s := by
  intro seq _ event member tagged
  exact notAsked (inv.asked event member (by rw [tagged]; rfl))

theorem encrypted_push {event : Event} (inv : TagInvariant s)
    (grows : s.encryptedSeqs ⊆ t.encryptedSeqs) (log : t.log = event :: s.log)
    (inEpoch : event.startsClientEpoch = false) (tags : ∀ seq ∈ event.tagSeq, seq ∈ t.encryptedSeqs) :
    ∀ other ∈ clientEpoch t.log, ∀ seq ∈ other.tagSeq, seq ∈ t.encryptedSeqs := by
  rw [log, clientEpoch_cons _ inEpoch]
  intro other member seq tagged
  rcases List.mem_cons.mp member with rfl | earlier
  · exact tags seq tagged
  · exact grows (inv.encrypted other earlier seq tagged)

theorem asked_push {event : Event} (inv : TagInvariant s) (log : t.log = event :: s.log)
    (inEpoch : event.startsClientEpoch = false)
    (answers : event.tagSeq.isSome = true → ∃ earlier ∈ clientEpoch s.log, earlier.asksTag = true) :
    ∀ other ∈ clientEpoch t.log, other.tagSeq.isSome = true →
      ∃ earlier ∈ clientEpoch t.log, earlier.asksTag = true := by
  rw [log, clientEpoch_cons _ inEpoch]
  intro other member tagged
  have older : ∃ earlier ∈ clientEpoch s.log, earlier.asksTag = true := by
    rcases List.mem_cons.mp member with rfl | earlier
    · exact answers tagged
    · exact inv.asked other earlier tagged
  rcases older with ⟨earlier, inEarlier, asks⟩
  exact ⟨earlier, List.mem_cons_of_mem _ inEarlier, asks⟩

theorem fresh_push {event : Event} (inv : TagInvariant s) (log : t.log = event :: s.log)
    (allowed : Justified EncryptsBetweenTags s.log → TagNonceFresh s.log event) :
    Justified EncryptsBetweenTags t.log → Justified TagNonceFresh t.log := by
  rw [log]
  exact Justified.cons_of_imp inv.fresh fun met _ => allowed met.tail

theorem push {event : Event} (inv : TagInvariant s) (same : t.encryptedSeqs = s.encryptedSeqs)
    (log : t.log = event :: s.log) (unrelated : event.Unrelated) : TagInvariant t := by
  refine ⟨inv.encrypted_push (same ▸ List.Subset.refl _) log unrelated.inEpoch ?_,
    inv.asked_push log unrelated.inEpoch ?_, ?_, ?_, inv.fresh_push log ?_⟩
  · rw [unrelated.noTag]
    exact nofun
  · rw [unrelated.noTag]
    exact nofun
  · rw [log, since_cons_other unrelated.notAsking]
    rintro ⟨other, member, isEncrypted⟩
    rcases List.mem_cons.mp member with rfl | earlier
    · rw [unrelated.notEncrypted] at isEncrypted
      cases isEncrypted
    · exact (inv.untagged ⟨other, earlier, isEncrypted⟩).push same log unrelated.inEpoch
        unrelated.noTag
  · rw [log]
    rintro _ ⟨other, isHead, asks⟩
    cases isHead
    rw [unrelated.notAsking] at asks
    cases asks
  · intro _ seq tagged
    rw [unrelated.noTag] at tagged
    cases tagged

/-- The message comes before the first tag of the epoch, or after a new encryption. -/
theorem ask (inv : TagInvariant s) :
    TagInvariant { s with log := .message .gcmTag :: s.log } := by
  refine ⟨inv.encrypted_push (List.Subset.refl _) rfl rfl nofun, inv.asked_push rfl rfl nofun,
    nofun, ?_, inv.fresh_push rfl fun _ => nofun⟩
  intro met _
  have lastUntagged : LastUntagged s := by
    by_cases isAsked : ∃ earlier ∈ clientEpoch s.log, earlier.asksTag = true
    · exact inv.untagged (met.head rfl isAsked)
    · exact inv.untagged_of_not_asked isAsked
  exact lastUntagged.push rfl rfl rfl rfl

theorem note {event : Event} (inv : TagInvariant s) (plain : event.isPlain = true) :
    TagInvariant { s with log := event :: s.log } := by
  cases event with
  | message header =>
      cases header with
      | gcmTag => exact inv.ask
      | _ => exact inv.push rfl rfl ⟨rfl, rfl, rfl, rfl⟩
  | aesEncBatch seq ctr => exact inv.push rfl rfl ⟨rfl, rfl, rfl, rfl⟩
  | keystreamRequest records => exact inv.push rfl rfl ⟨rfl, rfl, rfl, rfl⟩
  | verifyRequest seq => exact inv.push rfl rfl ⟨rfl, rfl, rfl, rfl⟩
  | _ => cases plain

theorem encrypt (inv : TagInvariant s) (seq : UInt64) (encryptCtLen : ℕ)
    (unused : seq ∉ s.encryptedSeqs) :
    TagInvariant
      { s with
        encryptCtLen
        encryptedSeqs := s.encryptedSeqs ++ [seq]
        log := .encrypted seq :: s.log } := by
  refine ⟨inv.encrypted_push (List.subset_append_left _ _) rfl rfl nofun,
    inv.asked_push rfl rfl nofun, ?_, ?_, inv.fresh_push rfl fun _ => nofun⟩
  · intro _ last isLast event member tagged
    -- the new sequence number is the last one, and tags belong to the earlier ones
    change last ∈ (s.encryptedSeqs ++ [seq]).getLast? at isLast
    rw [List.getLast?_concat] at isLast
    cases isLast
    rcases List.mem_cons.mp member with rfl | earlier
    · cases tagged
    · exact unused (inv.encrypted event earlier seq tagged)
  · rintro _ ⟨event, isHead, asks⟩
    cases isHead
    cases asks

theorem tag (inv : TagInvariant s) (seq : UInt64) (aad ciphertext : Bytes)
    (last : s.encryptedSeqs.getLast? = some seq)
    (asked : s.log.head? = some (.message .gcmTag)) :
    TagInvariant { s with log := .tagCircuit seq aad ciphertext :: s.log } := by
  rcases List.head?_eq_some_iff.mp asked with ⟨older, isLog⟩
  have isAsked : ∃ earlier ∈ clientEpoch s.log, earlier.asksTag = true := by
    rw [isLog]
    exact ⟨.message .gcmTag, List.mem_cons_self, rfl⟩
  refine ⟨inv.encrypted_push (List.Subset.refl _) rfl rfl ?_,
    inv.asked_push rfl rfl fun _ => isAsked, ?_, ?_, inv.fresh_push rfl ?_⟩
  · intro tagged isTagged
    cases isTagged
    exact List.mem_of_getLast? last
  · rw [isLog]
    rintro ⟨event, member, isEncrypted⟩
    cases List.mem_singleton.mp member
    cases isEncrypted
  · rintro _ ⟨event, isHead, asks⟩
    cases isHead
    cases asks
  · intro met tagged isTagged
    cases isTagged
    exact inv.answering met ⟨_, asked, rfl⟩ seq last

theorem restart {event : Event} (inv : TagInvariant s) (cleared : t.encryptedSeqs = [])
    (log : t.log = event :: s.log) (starts : event.startsClientEpoch = true)
    (noTag : event.tagSeq = none) : TagInvariant t := by
  have empty : clientEpoch t.log = [] := by
    rw [log]
    exact since_cons_delimiter starts
  have lastUntagged : LastUntagged t := by
    intro _ last
    rw [cleared] at last
    cases last
  refine ⟨?_, ?_, fun _ => lastUntagged, fun _ _ => lastUntagged, inv.fresh_push log ?_⟩
  · rw [empty]
    exact nofun
  · rw [empty]
    exact nofun
  · rw [TagNonceFresh, noTag]
    exact fun _ => nofun

theorem operation (inv : TagInvariant s) (operation : Operation s t) : TagInvariant t := by
  cases operation with
  | note event plain => exact inv.note plain
  | encrypting => exact inv.keep rfl rfl
  | readAad => exact inv.keep rfl rfl
  | encrypted seq encryptCtLen unused => exact inv.encrypt seq encryptCtLen unused
  | tagCircuit seq aad ciphertext last asked => exact inv.tag seq aad ciphertext last asked
  | rotate out direction _ =>
      cases direction with
      | client => exact inv.push rfl rfl ⟨rfl, rfl, rfl, rfl⟩
      | server => exact inv.push rfl rfl ⟨rfl, rfl, rfl, rfl⟩
  | restart powers direction _ =>
      cases direction with
      | client => exact inv.restart rfl rfl rfl rfl
      | server => exact inv.push rfl rfl ⟨rfl, rfl, rfl, rfl⟩
  | _ => exact inv.push rfl rfl ⟨rfl, rfl, rfl, rfl⟩

theorem step (inv : TagInvariant s) (step : Step s t) : TagInvariant t := by
  cases step with
  | operation operation => exact inv.operation operation
  | connect => exact inv.restart rfl rfl rfl rfl
  | rekey => exact inv.keep rfl rfl
  | _ => exact inv.push rfl rfl ⟨rfl, rfl, rfl, rfl⟩

end TagInvariant

end Session

namespace Server

theorem Fresh.tagInvariant {server : Server} (fresh : Fresh server) :
    TagInvariant server.session := by
  have lastUntagged : LastUntagged server.session := by
    intro _ last
    rw [fresh.encryptedSeqs_eq] at last
    cases last
  refine ⟨?_, ?_, fun _ => lastUntagged, fun _ _ => lastUntagged, ?_⟩
  · rw [fresh.log_eq]
    exact nofun
  · rw [fresh.log_eq]
    exact nofun
  · rw [fresh.log_eq]
    exact fun _ => .nil

/--
The tag circuit is run once for each sequence number and client key in every run
in which the provers encrypt a record between two `GCM_TAG` messages under one key.
-/
theorem performAll_tagNonceFresh (env : Environment) (calls : List Call) {server : Server}
    (fresh : Fresh server)
    (encrypts : Justified EncryptsBetweenTags (performAll env calls server).session.log) :
    Justified TagNonceFresh (performAll env calls server).session.log :=
  (performAll_invariant env calls fresh.tagInvariant
    fun _ _ step inv => TagInvariant.step inv step).fresh encrypts

def encryptMessage (seq : UInt8) : Bytes :=
  MessageHeader.toByte .aesEnc :: (List.replicate 7 0 ++ [seq, 0, 0, 0, 1])

def tagMessage (aad : UInt8) : Bytes :=
  MessageHeader.toByte .gcmTag :: ([0, 5, 0, 0, 0, 0, aad] ++ [0, 0, 0, 1])

/-- Two records, each with its tag. -/
def taggedRecords : Bytes :=
  encryptMessage 0 ++ tagMessage 0 ++ encryptMessage 1 ++ tagMessage 0 ++
    [MessageHeader.toByte .stop]

theorem servedOnce_tagNonceFresh :
    (servedOnce .masked false taggedRecords).session.log.filterMap Event.tagSeq = [1, 0] ∧
      Justified TagNonceFresh (servedOnce .masked false taggedRecords).session.log := by
  have encrypts : Justified EncryptsBetweenTags
      (servedOnce .masked false taggedRecords).session.log := by decide +kernel
  refine ⟨by decide +kernel, ?_⟩
  rw [servedOnce] at encrypts ⊢
  exact performAll_tagNonceFresh _ _ (fresh_initial .masked) encrypts

/-- One record and two `GCM_TAG` messages with different AAD. -/
def retaggedRecord : Bytes :=
  encryptMessage 0 ++ tagMessage 0 ++ tagMessage 1 ++ [MessageHeader.toByte .stop]

theorem servedOnce_not_tagNonceFresh :
    ¬Justified TagNonceFresh (servedOnce .masked false retaggedRecord).session.log := by
  decide +kernel

end Server

end PracticalCrypto.Surf
