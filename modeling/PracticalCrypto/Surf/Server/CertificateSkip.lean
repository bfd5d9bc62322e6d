import PracticalCrypto.Surf.Server.Runs

/-!
# Handshakes without a certificate

A resumed handshake carries no server certificate, so `do_cert_wait` skips it
when the prover has announced a resumption, and the server is authenticated by
the PSK alone. `do_ectf` believes the announcement on every connection, also when
this `Server` has never held a PSK share; the circuit then runs on zeros.

A full handshake needs the transcript of the certificate with a commitment of 32
bytes behind it. `do_cert_wait` looks for the commitment at the end of all
transcripts that this `Server` has ever received, so on a later connection the
bytes of an earlier one may stand in for it.
-/

namespace PracticalCrypto.Surf

open EventLog Session

/-- The PSK share of a PSK circuit run, or of the setter. -/
def Event.providedPsk : Event → Option Block
  | .pskProduced share => some share
  | .pskInstalled share => some share
  | _ => none

/-- The share came out of a PSK circuit or was installed. -/
def PskProvided (share : Block) (log : List Event) : Prop :=
  ∃ event ∈ log, event.providedPsk = some share

/-- A handshake circuit of this connection was fed a PSK share that had been provided. -/
def FedProvidedPsk (log : List Event) : Prop :=
  ∃ resumed share newer older, log = newer ++ .handshakeCircuit resumed share :: older ∧
    (∀ event ∈ newer, event.isConnection = false) ∧ PskProvided share older

/-- For a forwarded transcript, the bytes that were there before and those that arrived. -/
def Event.transcriptSizes : Event → Option (ℕ × ℕ)
  | .certificate kept arrived => some (kept, arrived)
  | _ => none

/-- A `CERTIFICATE_CTX_SEND` message of this connection brought a transcript and its commitment. -/
def CertificateReceived (log : List Event) : Prop :=
  ∃ kept arrived, 32 ≤ arrived ∧ .certificate kept arrived ∈ currentConnection log

/-- What must have happened before the verifier reveals its shares. -/
def ServerAuthenticated (older : List Event) : Event → Prop
  | .sharesRevealed _ _ => CertificateReceived older ∨ FedProvidedPsk older
  | _ => True

/-- The prover announces a resumption only to a verifier that has held a PSK share, and it sends the
commitment behind every transcript that the verifier adds to an earlier one. -/
def HandshakeHonest (older : List Event) (event : Event) : Prop :=
  (event = .handshakeMode true → ∃ earlier ∈ older, earlier.providedPsk.isSome = true) ∧
    ∀ sizes ∈ event.transcriptSizes, sizes.1 = 0 ∨ 32 ≤ sizes.2

instance (older : List Event) (event : Event) : Decidable (HandshakeHonest older event) :=
  inferInstanceAs (Decidable (_ ∧ _))

/-- The circuit of a resumed handshake is fed a share that had been provided. -/
def FedWhenResumed (older : List Event) : Event → Prop
  | .handshakeCircuit true share => PskProvided share older
  | _ => True

theorem PskProvided.cons {share : Block} {log : List Event} (event : Event)
    (provided : PskProvided share log) : PskProvided share (event :: log) := by
  rcases provided with ⟨earlier, member, provides⟩
  exact ⟨earlier, List.mem_cons_of_mem _ member, provides⟩

theorem serverAuthenticated_of_mayReveal {log : List Event} (chtsShare shtsShare : Block)
    (allowed : MayReveal log) (honest : Justified HandshakeHonest log)
    (fed : Justified FedWhenResumed log) :
    ServerAuthenticated log (.sharesRevealed chtsShare shtsShare) := by
  rcases allowed with ⟨kept, arrived, enough, received⟩ | ⟨share, resumed⟩
  · rcases exists_split_of_mem_since received with ⟨newer, older, split, -, -⟩
    have suffix : .certificate kept arrived :: older <:+ log := ⟨newer, split.symm⟩
    refine .inl ⟨kept, arrived, ?_, received⟩
    -- the check of the source is about all bytes, and nothing was there before
    rcases (honest.permitted_of_suffix suffix).2 _ rfl with nothing | brought
    · omega
    · exact brought
  · rcases exists_split_of_mem_since resumed with ⟨newer, older, split, others, _⟩
    have suffix : .handshakeCircuit true share :: older <:+ log := ⟨newer, split.symm⟩
    exact .inr ⟨true, share, newer, older, split, others, fed.permitted_of_suffix suffix⟩

def Event.reveals : Event → Bool
  | .sharesRevealed _ _ => true
  | _ => false

theorem Event.reveals_iff (event : Event) :
    event.reveals = true ↔ ∃ chtsShare shtsShare, event = .sharesRevealed chtsShare shtsShare := by
  cases event <;> simp [Event.reveals]

/-- The event is no transcript that came with its commitment. -/
def Event.bringsNothing : Event → Bool
  | .certificate _ arrived => decide (arrived < 32)
  | _ => true

/-- Shares were revealed without a certificate on the connection and without any PSK share. -/
def revealedBlindly : List Event → Bool
  | [] => false
  | event :: older =>
      (event.reveals && (currentConnection older).all Event.bringsNothing &&
        older.all fun earlier => earlier.providedPsk.isNone) || revealedBlindly older

theorem not_justified_serverAuthenticated {log : List Event} (blind : revealedBlindly log = true) :
    ¬Justified ServerAuthenticated log := by
  intro justified
  induction justified with
  | nil => cases blind
  | @cons older event _ allowed ih =>
      simp only [revealedBlindly, Bool.or_eq_true, Bool.and_eq_true, List.all_eq_true] at blind
      rcases blind with ⟨⟨reveals, notReceived⟩, notProvided⟩ | earlier
      · rcases event.reveals_iff.mp reveals with ⟨chtsShare, shtsShare, rfl⟩
        rcases allowed with
          ⟨kept, arrived, brought, received⟩ |
            ⟨_, share, between, earliest, rfl, _, event, isEarliest, provides⟩
        · have nothing := notReceived _ received
          simp only [Event.bringsNothing, decide_eq_true_eq] at nothing
          omega
        · have absent := notProvided event
            (List.mem_append_right _ (List.mem_cons_of_mem _ isEarliest))
          rw [provides] at absent
          cases absent
      · exact ih earlier

namespace Session

/-- The current PSK share is the provided one, and it is the one that a resumed handshake uses. -/
structure PskInvariant (s : Session) : Prop where
  current : (∃ event ∈ s.log, event.providedPsk.isSome = true) → PskProvided s.pskShare s.log
  resumed : Justified HandshakeHonest s.log → s.resumedHandshake = true →
    ∃ event ∈ s.log, event.providedPsk.isSome = true
  fed : Justified HandshakeHonest s.log → Justified FedWhenResumed s.log
  authenticated : Justified HandshakeHonest s.log → Justified ServerAuthenticated s.log

variable {s t : Session}

namespace PskInvariant

theorem keep (inv : PskInvariant s) (sameShare : t.pskShare = s.pskShare)
    (sameFlag : t.resumedHandshake = s.resumedHandshake) (log : t.log = s.log) :
    PskInvariant t := by
  refine ⟨?_, ?_, ?_, ?_⟩
  · rw [log, sameShare]
    exact inv.current
  · rw [log, sameFlag]
    exact inv.resumed
  · rw [log]
    exact inv.fed
  · rw [log]
    exact inv.authenticated

theorem push {event : Event} (inv : PskInvariant s) (sameShare : t.pskShare = s.pskShare)
    (log : t.log = event :: s.log) (notProvided : event.providedPsk = none)
    (resumes : Justified HandshakeHonest t.log → t.resumedHandshake = true →
      ∃ earlier ∈ s.log, earlier.providedPsk.isSome = true)
    (fed : Justified HandshakeHonest s.log → FedWhenResumed s.log event)
    (authenticated : Justified HandshakeHonest s.log → ServerAuthenticated s.log event) :
    PskInvariant t := by
  refine ⟨?_, ?_, ?_, ?_⟩
  · rw [log, sameShare]
    rintro ⟨earlier, member, provides⟩
    rcases List.mem_cons.mp member with rfl | inLog
    · rw [notProvided] at provides
      cases provides
    · exact (inv.current ⟨earlier, inLog, provides⟩).cons event
  · intro met isResumed
    rcases resumes met isResumed with ⟨earlier, member, provides⟩
    rw [log]
    exact ⟨earlier, List.mem_cons_of_mem _ member, provides⟩
  · rw [log]
    exact Justified.cons_of_imp inv.fed fun met _ => fed met.tail
  · rw [log]
    exact Justified.cons_of_imp inv.authenticated fun met _ => authenticated met.tail

/-- An event that concerns neither the PSK share nor the handshake. -/
theorem pushOther {event : Event} (inv : PskInvariant s) (sameShare : t.pskShare = s.pskShare)
    (sameFlag : t.resumedHandshake = s.resumedHandshake) (log : t.log = event :: s.log)
    (notProvided : event.providedPsk = none) (fed : FedWhenResumed s.log event)
    (authenticated : ServerAuthenticated s.log event) : PskInvariant t := by
  refine inv.push sameShare log notProvided ?_ (fun _ => fed) fun _ => authenticated
  rw [log, sameFlag]
  exact fun met => inv.resumed met.tail

theorem note {event : Event} (inv : PskInvariant s) (plain : event.isPlain = true) :
    PskInvariant { s with log := event :: s.log } := by
  cases event with
  | message header => exact inv.pushOther rfl rfl rfl rfl trivial trivial
  | aesEncBatch seq ctr => exact inv.pushOther rfl rfl rfl rfl trivial trivial
  | keystreamRequest records => exact inv.pushOther rfl rfl rfl rfl trivial trivial
  | verifyRequest seq => exact inv.pushOther rfl rfl rfl rfl trivial trivial
  | _ => cases plain

theorem operation (inv : PskInvariant s) (operation : Operation s t) : PskInvariant t := by
  cases operation with
  | note event plain => exact inv.note plain
  | encrypting => exact inv.keep rfl rfl rfl
  | readAad => exact inv.keep rfl rfl rfl
  | rotate out direction _ =>
      cases direction with
      | client => exact inv.pushOther rfl rfl rfl rfl trivial trivial
      | server => exact inv.pushOther rfl rfl rfl rfl trivial trivial
  | restart powers direction _ =>
      cases direction with
      | client => exact inv.pushOther rfl rfl rfl rfl trivial trivial
      | server => exact inv.pushOther rfl rfl rfl rfl trivial trivial
  | _ => exact inv.pushOther rfl rfl rfl rfl trivial trivial

theorem announce (inv : PskInvariant s) (resumedHandshake : Bool) :
    PskInvariant
      { s with resumedHandshake, log := .handshakeMode resumedHandshake :: s.log } := by
  refine inv.push rfl rfl rfl ?_ (fun _ => trivial) fun _ => trivial
  intro met isResumed
  cases isResumed
  exact met.head.1 rfl

/-- A resumed handshake feeds the circuit the current share, and some share was provided. -/
theorem handshakeCircuit (inv : PskInvariant s) :
    PskInvariant
      { s with log := .handshakeCircuit s.resumedHandshake (Server.pskInput s) :: s.log } := by
  refine inv.push rfl rfl rfl (fun met => inv.resumed met.tail) (fun met => ?_) fun _ => trivial
  rw [Server.pskInput]
  rcases isResumed : s.resumedHandshake with _ | _
  · exact trivial
  · rw [if_pos rfl]
    exact inv.current (inv.resumed met isResumed)

theorem provide {event : Event} (inv : PskInvariant s) (log : t.log = event :: s.log)
    (provided : event.providedPsk = some t.pskShare) (fed : FedWhenResumed s.log event)
    (authenticated : ServerAuthenticated s.log event) : PskInvariant t := by
  refine ⟨fun _ => ?_, fun _ _ => ?_, ?_, ?_⟩
  · rw [log]
    exact ⟨event, List.mem_cons_self, provided⟩
  · rw [log]
    exact ⟨event, List.mem_cons_self, by rw [provided]; rfl⟩
  · rw [log]
    exact Justified.cons_of_imp inv.fed fun _ _ => fed
  · rw [log]
    exact Justified.cons_of_imp inv.authenticated fun _ _ => authenticated

theorem reveal (inv : PskInvariant s) (chtsShare shtsShare : Block) (allowed : MayReveal s.log) :
    PskInvariant { s with log := .sharesRevealed chtsShare shtsShare :: s.log } := by
  refine inv.push rfl rfl rfl (fun met => inv.resumed met.tail) (fun _ => trivial) fun met => ?_
  exact serverAuthenticated_of_mayReveal chtsShare shtsShare allowed met (inv.fed met)

theorem step (inv : PskInvariant s) (step : Step s t) : PskInvariant t := by
  cases step with
  | operation operation => exact inv.operation operation
  | connect => exact inv.pushOther rfl rfl rfl rfl trivial trivial
  | rekey => exact inv.keep rfl rfl rfl
  | handshakeMode resumedHandshake => exact inv.announce resumedHandshake
  | handshakeCircuit => exact inv.handshakeCircuit
  | certificate kept arrived => exact inv.pushOther rfl rfl rfl rfl trivial trivial
  | reveal chtsShare shtsShare allowed => exact inv.reveal chtsShare shtsShare allowed
  | producePsk pskShare => exact inv.provide rfl rfl trivial trivial
  | installPsk pskShare => exact inv.provide rfl rfl trivial trivial

end PskInvariant

end Session

namespace Server

theorem Fresh.pskInvariant {server : Server} (fresh : Fresh server) :
    PskInvariant server.session := by
  refine ⟨?_, ?_, ?_, ?_⟩
  · rw [fresh.log_eq]
    rintro ⟨_, inEmpty, _⟩
    cases inEmpty
  · rw [fresh.resumedHandshake_eq]
    exact fun _ => nofun
  · rw [fresh.log_eq]
    exact fun _ => .nil
  · rw [fresh.log_eq]
    exact fun _ => .nil

/--
The verifier reveals its handshake shares only for an authenticated server in
every run in which resumptions are announced to it only once it has held a PSK
share and later transcripts come with their commitment, over any number of
connections.
-/
theorem performAll_serverAuthenticated (env : Environment) (calls : List Call) {server : Server}
    (fresh : Fresh server)
    (honest : Justified HandshakeHonest (performAll env calls server).session.log) :
    Justified ServerAuthenticated (performAll env calls server).session.log :=
  (performAll_invariant env calls fresh.pskInvariant
    fun _ _ step inv => PskInvariant.step inv step).authenticated honest

/-- A new `Server` on which a PSK share is installed and that then serves a resumption. -/
def resumedOnce (share : Block) : Server :=
  performAll
    (Environment.cooperative
      (connectionMessages .masked true [MessageHeader.toByte .stop]) 32)
    [.setAttestation, .setPskShare share, .run .done true] (Server.initial .masked)

theorem resumedOnce_serverAuthenticated :
    .handshakeCircuit true (fun _ => 7) ∈ (resumedOnce fun _ => 7).session.log ∧
      Justified ServerAuthenticated (resumedOnce fun _ => 7).session.log := by
  have honest : Justified HandshakeHonest (resumedOnce fun _ => 7).session.log := by
    decide +kernel
  refine ⟨by decide +kernel, ?_⟩
  rw [resumedOnce] at honest ⊢
  exact performAll_serverAuthenticated _ _ (fresh_initial .masked) honest

/-- A prover up to the transcript of the certificate, with records of 64 bytes. -/
def transcriptMessages (transcript : Bytes) : Bytes :=
  MessageHeader.toByte .collect :: ([0, 23, 0, 59] ++ List.replicate 59 0) ++
    MessageHeader.toByte .serverKeyShare :: ([0, 23, 0, 59] ++ List.replicate 59 0) ++
    [MessageHeader.toByte .hsModeFull, MessageHeader.toByte .doEctf,
      MessageHeader.toByte .certificateCtxSend] ++ List.replicate 8 0 ++ transcript

/-- A new `Server` with two full connections, of which the second brings one byte of transcript. -/
def keptTranscript : Server :=
  performAll
    { Environment.cooperative [] 64 with
      accept := fun now =>
        some (transcriptMessages (if now = 0 then List.replicate 64 9 else [1])) }
    [.run .deriveTs true, .run .deriveTs true] (Server.initial .trueSurf)

/-- A resumption announced to a new `Server`, and a second full connection with one byte: the shares
are revealed with no certificate. -/
theorem servedOnce_not_serverAuthenticated :
    ¬Justified ServerAuthenticated
        (servedOnce .masked true [MessageHeader.toByte .stop]).session.log ∧
      ¬Justified ServerAuthenticated keptTranscript.session.log := by
  have blind :
      revealedBlindly (servedOnce .masked true [MessageHeader.toByte .stop]).session.log = true ∧
        revealedBlindly keptTranscript.session.log = true := by
    decide +kernel
  exact ⟨not_justified_serverAuthenticated blind.1, not_justified_serverAuthenticated blind.2⟩

end Server

end PracticalCrypto.Surf
