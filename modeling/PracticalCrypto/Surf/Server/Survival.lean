import PracticalCrypto.Surf.Server.Steady

/-!
# What a prover can do to the process of the verifier

`std::abort`, a null circuit pointer, an exception in a function that lets none
pass, an inconsistent multiplication and the `exit` of the two-party library all end
the process of the verifier. This file says which steps of a connection are orderly,
and shows for every state that an orderly step is survived: it fails or leads to the
next state, which then finds what it needs.

`write_hs_recv` aborts if a record is partly read, and the handshake takes another
way then. Both are asked when a connection has just begun or a record has been read
to its end, so that neither happens.

`do_preproc` builds the first handshake circuit for one group and the second one
never, before the prover says which groups it offers and which one it selects.
-/

namespace PracticalCrypto.Surf

open BlockMap Handler

/-- `SSL_CURVE_SECP256R1`. -/
def curveSecp256r1 : UInt16 := 23

/-- The group for which `do_preproc` builds a handshake circuit. -/
def Circuit.handshakeGroup : Circuit → Option UInt16
  | .handshakeA => some curveSecp256r1
  | _ => none

/-- The states that ask for pending bytes, or lead to such a state without a read. -/
def ServerState.isQuiet : ServerState → Bool
  | .handshake => true
  | .handshakeDone => true
  | .finishingTph => true
  | .writingHsRecv => true
  | _ => false

theorem ServerState.value_injective : Function.Injective ServerState.value := by
  intro state other same
  rw [← ServerState.ofNat_ctorIdx state, ← ServerState.ofNat_ctorIdx other]
  exact congrArg ServerState.ofNat same

namespace Server

section Conditions

variable (env : Environment)

/-- `key_shares[active_key_share]`. -/
def activeShare (server : Server) : KeyShare :=
  if server.activeKeyShare = .handshakeB then server.keyShareB else server.keyShareA

/-- `handshake_circuits[active_key_share]` exists and is for the group of the active key share. -/
def HandshakeCircuitFits (server : Server) : Prop :=
  server.circuits server.activeKeyShare = true ∧
    server.activeKeyShare.handshakeGroup = some server.activeShare.groupId

instance (server : Server) : Decidable (HandshakeCircuitFits server) :=
  inferInstanceAs (Decidable (_ ∧ _))

/-- The capacity that `read_transcript_data` reserves for the size in its message. -/
def declaredCapacity (server : Server) : ℕ :=
  (server.transcript.length + BigEndian.toNat ((server.inbox.drop 1).take 8)) % 2 ^ 64

/-- What the step that serves `state` needs from the prover: that the group of the first key share is
selected and is the one of the circuit, and that the size of the transcript fits into the memory. -/
def Orderly (state : ServerState) (server : Server) : Prop :=
  (state = .finishingTph →
    server.keyShareA.groupId = curveSecp256r1 ∧
      ∀ entry ∈ takeKeyEntry server.clientPublicKey, entry.1 = curveSecp256r1) ∧
  (state = .certWait → server.session.resumedHandshake = false →
    server.declaredCapacity < 2 ^ 63 ∧ env.allocate server.clock server.declaredCapacity = true)

instance (state : ServerState) (server : Server) : Decidable (Orderly env state server) :=
  inferInstanceAs (Decidable (_ ∧ _))

end Conditions

section Prepared

variable {env : Environment} {s : Server}

/-- No record is partly read. -/
def Idle (server : Server) : Prop := server.inbox.length = server.quiet

/-- What the earlier steps of an orderly connection have established on entry to a state. -/
structure Prepared (state : ServerState) (server : Server) : Prop where
  encrypted : NoOrphan server.session
  idle : state.isQuiet = true → Idle server
  built : ServerState.circuitPreproc.value < state.value →
    state.value ≤ ServerState.deriveRes.value →
      ∀ circuit ∈ [Circuit.traffic, .gcm, .resumption], server.circuits circuit = true
  handshake : ServerState.circuitPreproc.value < state.value →
    state.value ≤ ServerState.ksWait.value → server.circuits .handshakeA = true
  selected : ServerState.finishingTph.value < state.value →
    state.value ≤ ServerState.ksWait.value →
      server.activeKeyShare = .handshakeA ∧ server.keyShareA.groupId = curveSecp256r1

/-- Before the preprocessing, nothing is needed but that no ciphertext is left. -/
theorem prepared_of_early {state : ServerState}
    (early : state.value ≤ ServerState.circuitPreproc.value) (loud : state.isQuiet = false)
    (encrypted : NoOrphan s.session) : Prepared state s where
  encrypted := encrypted
  idle quiet := absurd quiet (by simp [loud])
  built late _ := absurd early (by omega)
  handshake late _ := absurd early (by omega)
  selected late _ := by
    have order : ServerState.circuitPreproc.value < ServerState.finishingTph.value := by decide
    omega

theorem prepared_of_late {state : ServerState} (late : ServerState.deriveRes.value < state.value)
    (encrypted : NoOrphan s.session) : Prepared state s where
  encrypted := encrypted
  idle := by
    cases state with
    | handshake | handshakeDone | finishingTph | writingHsRecv => exact absurd late (by decide)
    | _ => exact nofun
  built _ early := absurd early (by omega)
  handshake _ early := by
    have order : ServerState.ksWait.value < ServerState.deriveRes.value := by decide
    omega
  selected _ early := by
    have order : ServerState.ksWait.value < ServerState.deriveRes.value := by decide
    omega

theorem Prepared.keep {state : ServerState} {after : Server} (prepared : Prepared state s)
    (tidy : Tidy s after) (idle : state.isQuiet = true → Idle s → Idle after) :
    Prepared state after where
  encrypted := tidy.encrypted prepared.encrypted
  idle quiet := idle quiet (prepared.idle quiet)
  built := by
    rw [tidy.circuits]
    exact prepared.built
  handshake := by
    rw [tidy.circuits]
    exact prepared.handshake
  selected := by
    rw [tidy.active, tidy.keyShare]
    exact prepared.selected

theorem Prepared.next {state : ServerState} (prepared : Prepared state s)
    (notPreproc : state ≠ .circuitPreproc) (notTph : state ≠ .finishingTph)
    (notDone : state ≠ .done) (idle : state.next.isQuiet = true → Idle s) :
    Prepared state.next s := by
  have step : state.next.value = state.value + 1 := by
    cases state with
    | done => exact absurd rfl notDone
    | _ => rfl
  have afterPreproc := ServerState.value_injective.ne notPreproc
  have afterTph := ServerState.value_injective.ne notTph
  refine ⟨prepared.encrypted, idle, ?_, ?_, ?_⟩
  · intro late early
    exact prepared.built (by omega) (by omega)
  · intro late early
    exact prepared.handshake (by omega) (by omega)
  · intro late early
    exact prepared.selected (by omega) (by omega)

/-- Until a key share is selected, only the circuits that are used later matter. -/
theorem Prepared.of_circuits {state : ServerState} {after : Server} (prepared : Prepared state s)
    (early : state.value ≤ ServerState.finishingTph.value) (loud : state.isQuiet = false)
    (encrypted : NoOrphan after.session)
    (kept : ∀ circuit ≠ Circuit.binder, after.circuits circuit = s.circuits circuit) :
    Prepared state after where
  encrypted := encrypted
  idle quiet := absurd quiet (by simp [loud])
  built late late' circuit used := by
    rw [kept circuit (by rintro rfl; simp at used)]
    exact prepared.built late late' circuit used
  handshake late late' := by
    rw [kept .handshakeA nofun]
    exact prepared.handshake late late'
  selected late _ := absurd early (by omega)

theorem Prepared.survives {α : Type} {state : ServerState} {prog : Handler Server α}
    (prepared : Prepared state s) (loud : state.isQuiet = false) (steady : Steady Tidy prog) :
    Survives prog (fun _ after => Prepared state after) s := by
  apply (steady s).mono
  intro _ after tidy
  exact prepared.keep tidy fun quiet => absurd quiet (by simp [loud])

theorem Prepared.survives_bind {α β : Type} {state : ServerState} {prog : Handler Server α}
    {next : α → Handler Server β} {post : β → Server → Prop} (prepared : Prepared state s)
    (loud : state.isQuiet = false) (steady : Steady Tidy prog)
    (rest : ∀ value after, Prepared state after → Survives (next value) post after) :
    Survives (prog >>= next) post s :=
  Survives.bind ((prepared.survives loud steady).mono rest)

/-- A step that does nothing to what a later, loud state depends on. -/
theorem Prepared.survives_next {state : ServerState} {prog : Handler Server Unit}
    (prepared : Prepared state s) (steady : Steady Tidy prog)
    (plain : state ≠ .circuitPreproc ∧ state ≠ .finishingTph ∧ state ≠ .done)
    (loud : state.next.isQuiet = false) :
    Survives prog (fun _ after => Prepared state.next after) s :=
  (prepared.next plain.1 plain.2.1 plain.2.2 fun quiet => absurd quiet (by simp [loud])).survives
    loud steady

end Prepared

section Handlers

variable {env : Environment} {s : Server}

theorem steady_setState (state : ServerState) : Steady Tidy (setState state) :=
  steady_modify fun _ => ⟨⟨rfl, rfl, rfl⟩, id⟩

theorem steady_advance : Steady Tidy advance := steady_modify fun _ => ⟨⟨rfl, rfl, rfl⟩, id⟩

theorem steady_readMaskCommitments : Steady Tidy readMaskCommitments := by
  refine steady_bind steady_get fun _ => steady_ite steady_advance ?_
  refine steady_bind steady_readSingleHeader fun _ => steady_bind (steady_require _) fun _ => ?_
  refine steady_bind (steady_readExact _) fun _ => ?_
  exact steady_bind (steady_modifySession fun _ => id) fun _ => steady_advance

theorem steady_sendAdditiveShare : Steady Tidy (sendAdditiveShare env) := by
  refine steady_bind steady_get fun _ => steady_bind (steady_require _) fun _ => ?_
  exact steady_bind (steady_write _) fun _ => steady_advance

theorem steady_doEctf (stays : LibraryStays env) : Steady Tidy (doEctf env) := by
  refine steady_bind steady_readSingleHeader fun _ => steady_bind (steady_require _) fun _ => ?_
  refine steady_bind (steady_modifySession fun _ => id) fun _ => ?_
  refine steady_bind steady_readSingleHeader fun _ => steady_bind (steady_require _) fun _ => ?_
  refine steady_bind (steady_libraryRequest stays) fun _ => steady_bind (steady_ofOption _) fun _ => ?_
  exact steady_bind (steady_modify fun _ => ⟨⟨rfl, rfl, rfl⟩, id⟩) fun _ => steady_advance

theorem steady_acknowledge (header : MessageHeader) : Steady Tidy (acknowledge env header) :=
  steady_bind (steady_write _) fun _ => steady_advance

theorem steady_writeCertRecv : Steady Tidy (writeCertRecv env) := by
  refine steady_bind steady_get fun _ => steady_bind (steady_record _) fun _ => ?_
  exact steady_bind (steady_write _) fun _ => steady_advance

theorem steady_writeCompletedPsk : Steady Tidy (writeCompletedPsk env) :=
  steady_bind steady_get fun _ => steady_ite steady_advance (steady_acknowledge _)

/-- A new connection has been read from not at all. -/
theorem survives_accept (prepared : Prepared .accept s) :
    Survives (accept env) (fun _ after => Prepared .handshake after) s := by
  apply Survives.bind
  apply Survives.of_eq tick_eq
  apply Survives.ofOption_bind
  intro stream _
  apply Survives.modify_bind
  apply Survives.modify
  refine ⟨prepared.encrypted, fun _ => rfl, ?_, ?_, ?_⟩
  · exact fun late => absurd late (by decide)
  · exact fun late => absurd late (by decide)
  · exact fun late => absurd late (by decide)

theorem survives_pending (idle : Idle s) :
    Survives (pending env)
      (fun waiting after => waiting = 0 ∧ after = { s with clock := s.clock + 1 }) s :=
  Survives.of_eq (pending_eq idle) ⟨rfl, rfl⟩

theorem survives_writeHandshakeDone (prepared : Prepared .handshakeDone s) :
    Survives (writeHandshakeDone env)
      (fun _ after => after.state = .circuitPreproc ∧ Prepared .circuitPreproc after) s := by
  apply Survives.bind
  apply (survives_pending (prepared.idle rfl)).mono
  rintro _ _ ⟨rfl, rfl⟩
  rw [if_neg (by simp)]
  have ready : Prepared .circuitPreproc { s with clock := s.clock + 1 } :=
    (prepared.next nofun nofun nofun nofun).keep ⟨⟨rfl, rfl, rfl⟩, id⟩ nofun
  apply ready.survives_bind rfl (steady_write _)
  intro _ written ready
  apply Survives.modify
  exact ⟨rfl, ready.keep ⟨⟨rfl, rfl, rfl⟩, id⟩ nofun⟩

theorem survives_doHandshake (prepared : Prepared .handshake s) :
    Survives (doHandshake env)
      (fun _ after => after.state = .handshakeDone ∧ Prepared .handshakeDone after) s := by
  have idle : Idle s := prepared.idle rfl
  apply Survives.bind
  apply Survives.of_eq tick_eq
  apply Survives.require_bind
  intro _
  apply Survives.bind
  have ticked : Idle { s with clock := s.clock + 1 } := idle
  apply (survives_pending ticked).mono
  rintro _ _ ⟨rfl, rfl⟩
  rw [if_pos rfl]
  apply Survives.modify
  have ready := prepared.next nofun nofun nofun fun _ => idle
  exact ⟨rfl, ready.keep ⟨⟨rfl, rfl, rfl⟩, id⟩ fun _ => id⟩

/-- The abort for pending bytes is never reached. -/
theorem survives_writeHsRecv (prepared : Prepared .writingHsRecv s) :
    Survives (writeHsRecv env) (fun _ after => Prepared .ectfWait after) s := by
  apply Survives.bind
  apply (survives_pending (prepared.idle rfl)).mono
  rintro _ _ ⟨rfl, rfl⟩
  rw [if_neg (by simp)]
  have ready : Prepared .ectfWait { s with clock := s.clock + 1 } :=
    (prepared.next nofun nofun nofun nofun).keep ⟨⟨rfl, rfl, rfl⟩, id⟩ nofun
  exact ready.survives rfl (steady_acknowledge .hsRecv)

/-- `socket.read` takes the rest of a record. -/
theorem ensures_readSome_idle : Ensures (readSome env) (fun _ after => Idle after) s := by
  refine Ensures.bind fun _ _ _ => Ensures.get_bind (Ensures.require_bind fun _ => ?_)
  refine Ensures.modify_bind (Ensures.pure ?_)
  simp [Idle]

theorem ensures_readKeyshare_idle (expected : MessageHeader) :
    Ensures (readKeyshare env expected) (fun _ after => Idle after) s := by
  refine Ensures.bind (ensures_readSome_idle.mono fun _ _ idle => ?_)
  refine Ensures.ofOption_bind fun _ _ => Ensures.modify_bind (Ensures.require fun _ => ?_)
  exact idle

theorem survives_readSksKeyshare (prepared : Prepared .readingSks s) :
    Survives (readSksKeyshare env) (fun _ after => Prepared .finishingTph after) s := by
  have reads : Steady Tidy (readKeyshare env .serverKeyShare) := steady_readKeyshare _
  apply Survives.bind
  refine ((reads s).and (ensures_readKeyshare_idle _)).mono ?_
  rintro _ read ⟨tidy, idle⟩
  apply Survives.modify
  have kept : Prepared .readingSks read := prepared.keep tidy nofun
  have ready := kept.next nofun nofun nofun fun _ => idle
  exact ready.keep ⟨⟨rfl, rfl, rfl⟩, id⟩ fun _ => id

theorem survives_dereference {circuit : Circuit} (built : s.circuits circuit = true) :
    Survives (dereference circuit) (fun _ after => after = s) s := by
  apply Survives.get_bind
  rw [if_pos built]
  exact Survives.pure rfl

/-- The circuits are built in their order, and nothing but a lost connection prevents it. -/
theorem survives_doPreproc (builds : ∀ now circuit, env.build now circuit = true)
    (stays : LibraryStays env) (encrypted : NoOrphan s.session) :
    Survives (doPreproc env true) (fun _ after => Prepared .maskCommit after) s := by
  change Survives (do
    let server ← Handler.get
    Handler.forEach (preprocCircuit env) (preprocOrder server.session.mode)
    advance) _ s
  apply Survives.get_bind
  apply Survives.bind
  let inOrder (later : List Circuit) (server : Server) : Prop :=
    NoOrphan server.session ∧
      ∀ circuit ∈ preprocOrder s.session.mode, circuit ∉ later → server.circuits circuit = true
  have loop : Survives (Handler.forEach (preprocCircuit env) (preprocOrder s.session.mode))
      (fun _ => inOrder []) s := by
    apply Survives.forEach
    · rintro circuit later server ⟨orphan, built⟩
      have ticks : Steady Tidy tick := steady_tick
      apply ticks.survives_bind
      intro now asked tidy
      apply Survives.modify_bind
      rw [if_pos (builds now circuit)]
      have requests : Steady Tidy (libraryRequest env) := steady_libraryRequest stays
      apply requests.survives_bind
      intro preprocAt preprocessed tidyLater
      apply Survives.require
      intro _
      refine ⟨tidyLater.encrypted (tidy.encrypted orphan), ?_⟩
      intro other inside outside
      rw [tidyLater.circuits]
      rcases eq_or_ne other circuit with rfl | differs
      · exact (Function.update_self _ _ _).trans (builds now other)
      · apply (Function.update_of_ne differs _ _).trans
        rw [tidy.circuits]
        apply built other inside
        simp [differs, outside]
    · exact ⟨encrypted, fun circuit inside outside => absurd inside outside⟩
  apply loop.mono
  rintro _ after ⟨orphan, built⟩
  apply Survives.modify
  refine ⟨orphan, nofun, ?_, ?_, ?_⟩
  · intro _ _ circuit used
    apply built circuit _ List.not_mem_nil
    rw [preprocOrder, List.append_assoc, List.append_assoc]
    apply List.mem_append_left
    revert circuit
    decide
  · intro _ _
    exact built .handshakeA List.mem_cons_self List.not_mem_nil
  · intro late _
    exact absurd late (by decide)

instance : IoBlind (Same fun server : Server => (server.circuits, server.session)) where
  io _ _ _ _ _ _ _ _ := rfl

theorem survives_createNewShare (prepared : Prepared .makingKs s) :
    Survives (createNewShare env) (fun _ after => Prepared .writingKs after) s := by
  have steady : Steady (Same fun server : Server => (server.circuits, server.session))
      (createNewShare env) := by
    refine steady_bind steady_get fun _ => steady_bind (steady_ofOption _) fun _ => ?_
    refine steady_bind steady_tick fun _ => steady_bind (steady_modify fun _ => rfl) fun _ => ?_
    refine steady_bind (steady_require _) fun _ => steady_ite (steady_modify fun _ => rfl) ?_
    refine steady_bind (steady_ofOption _) fun _ => steady_bind steady_tick fun _ => ?_
    refine steady_bind (steady_modify fun _ => rfl) fun _ => ?_
    exact steady_bind (steady_require _) fun _ => steady_modify fun _ => rfl
  apply (steady s).mono
  intro _ after same
  rcases Prod.mk.inj same with ⟨sameCircuits, sameSession⟩
  have ready := prepared.next nofun nofun nofun nofun
  apply ready.of_circuits (by decide) rfl
  · rw [sameSession]
    exact prepared.encrypted
  · intro circuit _
    rw [sameCircuits]

theorem survives_doPskBinder (prepared : Prepared .pskBinder s) :
    Survives (doPskBinder env) (fun _ after => Prepared .readingSks after) s := by
  apply Survives.get_bind
  apply Survives.ite
  · intro _
    exact prepared.survives_next steady_advance (by decide) rfl
  · intro _
    apply prepared.survives_bind rfl steady_readSingleHeader
    intro header headed prepared
    apply Survives.require_bind
    intro _
    apply prepared.survives_bind rfl (steady_requireCircuit _)
    intro _ checked prepared
    apply prepared.survives_bind rfl steady_tick
    intro now asked prepared
    apply Survives.require_bind
    intro _
    apply Survives.modify_bind
    apply Survives.modify
    have ready := prepared.next nofun nofun nofun nofun
    apply ready.of_circuits (by decide) rfl
    · exact ready.encrypted
    · intro circuit differs
      exact Function.update_of_ne differs _ _

theorem survives_finishTph (prepared : Prepared .finishingTph s)
    (group : s.keyShareA.groupId = curveSecp256r1)
    (selects : ∀ entry ∈ takeKeyEntry s.clientPublicKey, entry.1 = curveSecp256r1) :
    Survives (finishTph env) (fun _ after => Prepared .writingHsRecv after) s := by
  apply Survives.get_bind
  apply Survives.ofOption_bind
  rintro ⟨selected, key, rest⟩ found
  have isSelected : selected = curveSecp256r1 := selects _ found
  apply Survives.require_bind
  intro _
  rw [if_pos (by rw [group, isSelected])]
  apply Survives.ofOption_bind
  rintro _ ⟨⟩
  apply Survives.modify_bind
  apply Survives.bind
  apply Survives.of_eq tick_eq
  apply Survives.require_bind
  intro _
  apply Survives.modify
  exact ⟨prepared.encrypted, fun _ => prepared.idle rfl,
    fun _ _ => prepared.built (by decide) (by decide),
    fun _ _ => prepared.handshake (by decide) (by decide), fun _ _ => ⟨rfl, group⟩⟩

theorem Prepared.handshakeCircuitFits (prepared : Prepared .ksWait s) : HandshakeCircuitFits s := by
  rcases prepared.selected (by decide) (by decide) with ⟨active, group⟩
  rw [HandshakeCircuitFits, activeShare, active]
  exact ⟨prepared.handshake (by decide) (by decide), congrArg some group.symm⟩

theorem survives_doKs (prepared : Prepared .ksWait s) :
    Survives (doKs env) (fun _ after => Prepared .ksDone after) s := by
  apply Survives.get_bind
  apply Survives.bind
  apply (survives_dereference prepared.handshakeCircuitFits.1).mono
  rintro _ _ rfl
  apply prepared.survives_bind rfl (steady_record _)
  intro _ recorded prepared
  apply prepared.survives_bind rfl steady_tick
  intro now asked prepared
  apply Survives.ofOption_bind
  intro shares _
  apply Survives.modify_bind
  apply Survives.modify
  refine ⟨prepared.encrypted, nofun, ?_, ?_, ?_⟩
  · intro _ _ circuit used
    have active := (prepared.selected (by decide) (by decide)).1
    have kept : circuit ≠ asked.activeKeyShare := by
      rw [active]
      rintro rfl
      simp at used
    apply (Function.update_of_ne kept _ _).trans
    exact prepared.built (by decide) (by decide) circuit used
  · intro _ early
    exact absurd early (by decide)
  · intro _ early
    exact absurd early (by decide)

theorem survives_readSingleHeader :
    Survives readSingleHeader (fun _ after => after = { s with inbox := s.inbox.drop 1 }) s := by
  have reads : Steady Tidy (readExact 1) := steady_readExact 1
  apply Survives.bind
  refine ⟨(reads s).notAborted, ?_⟩
  refine (ensures_readExact 1).mono ?_
  rintro bytes _ ⟨-, -, rfl⟩
  exact Survives.ofOption fun _ _ => rfl

theorem survives_readU64 :
    Survives readU64
      (fun value after => value = UInt64.ofNat (BigEndian.toNat (s.inbox.take 8)) ∧
        after = { s with inbox := s.inbox.drop 8 }) s := by
  have reads : Steady Tidy (readExact 8) := steady_readExact 8
  apply Survives.bind
  refine ⟨(reads s).notAborted, ?_⟩
  refine (ensures_readExact 8).mono ?_
  rintro bytes _ ⟨-, rfl, rfl⟩
  exact Survives.pure ⟨rfl, rfl⟩

theorem survives_reserveTranscript {size : UInt64}
    (small : (s.transcript.length + size.toNat) % 2 ^ 64 < 2 ^ 63)
    (granted : env.allocate s.clock ((s.transcript.length + size.toNat) % 2 ^ 64) = true) :
    Survives (reserveTranscript env size) (fun _ => Tidy s) s := by
  apply Survives.get_bind
  apply Survives.bind
  apply Survives.of_eq (show tick s = (.returned s.clock, { s with clock := s.clock + 1 }) from rfl)
  rw [if_pos ⟨small, granted⟩]
  exact Survives.pure ⟨⟨rfl, rfl, rfl⟩, id⟩

theorem survives_doCertWait (prepared : Prepared .certWait s)
    (fits : s.session.resumedHandshake = false →
      s.declaredCapacity < 2 ^ 63 ∧ env.allocate s.clock s.declaredCapacity = true) :
    Survives (doCertWait env) (fun _ after => Prepared .certRecv after) s := by
  have ready := prepared.next nofun nofun nofun nofun
  apply Survives.get_bind
  apply Survives.ite
  · intro _
    exact ready.survives rfl steady_advance
  · intro full
    apply Survives.bind
    apply survives_readSingleHeader.mono
    rintro header _ rfl
    apply Survives.require_bind
    intro _
    apply Survives.bind
    apply survives_readU64.mono
    rintro size _ ⟨rfl, rfl⟩
    rcases fits (by simpa using full) with ⟨small, granted⟩
    rw [declaredCapacity] at small granted
    apply Survives.bind
    refine (survives_reserveTranscript ?_ ?_).mono fun _ reserved tidy => ?_
    · rw [UInt64.toNat_ofNat', Nat.add_mod_mod]
      exact small
    · rw [UInt64.toNat_ofNat', Nat.add_mod_mod]
      exact granted
    have reservedReady : Prepared .certRecv reserved :=
      ready.keep ⟨⟨tidy.circuits, tidy.active, tidy.keyShare⟩, tidy.encrypted⟩ nofun
    apply Survives.get_bind
    apply reservedReady.survives_bind rfl (steady_readTranscript _)
    intro _ received receivedReady
    apply Survives.get_bind
    apply Survives.require_bind
    intro _
    apply Survives.modify_bind
    apply Survives.modify
    exact receivedReady.keep ⟨⟨rfl, rfl, rfl⟩, id⟩ nofun

/-- A step that derives shares reads its header and uses a circuit. What it does then is nothing
that a later step depends on. -/
theorem Prepared.survives_derivation {state : ServerState} {expected : MessageHeader}
    {circuit : Circuit} {rest : Server → Handler Server Unit} (prepared : Prepared state s)
    (late : ServerState.finishingTph.value < state.value)
    (early : state.value ≤ ServerState.deriveRes.value)
    (loud : state.isQuiet = false ∧ state.next.isQuiet = false)
    (used : circuit ∈ [Circuit.traffic, .gcm, .resumption])
    (steady : ∀ server, Steady Tidy (rest server)) :
    Survives
      (do
        let header ← readSingleHeader
        Handler.require (header = expected)
        dereference circuit
        let server ← Handler.get
        rest server)
      (fun _ after => Prepared state.next after) s := by
  have order : ServerState.circuitPreproc.value < ServerState.finishingTph.value := by decide
  apply prepared.survives_bind loud.1 steady_readSingleHeader
  intro header headed prepared
  apply Survives.require_bind
  intro _
  apply Survives.bind
  apply (survives_dereference (prepared.built (by omega) early circuit used)).mono
  rintro _ _ rfl
  apply Survives.get_bind
  refine prepared.survives_next (steady _) ⟨?_, ?_, ?_⟩ loud.2
  · rintro rfl
    omega
  · rintro rfl
    omega
  · rintro rfl
    exact absurd early (by decide)

theorem survives_deriveTs (prepared : Prepared .deriveTs s) :
    Survives (deriveTs env) (fun _ after => Prepared .gcmShareDerive after) s := by
  apply prepared.survives_derivation (by decide) (by decide) (by decide) (by decide)
  intro server
  refine steady_bind steady_tick fun _ => steady_bind (steady_ofOption _) fun _ => ?_
  exact steady_bind (steady_modifySession fun _ => id) fun _ => steady_advance

theorem survives_deriveGcmShares (stays : LibraryStays env)
    (prepared : Prepared .gcmShareDerive s) :
    Survives (deriveGcmShares env) (fun _ after => Prepared .gcmShareDone after) s := by
  have shares := fun keyShare => steady_makeGcmShareFor stays keyShare
  apply prepared.survives_derivation (by decide) (by decide) (by decide) (by decide)
  intro server
  refine steady_bind (shares _) fun _ => steady_bind (shares _) fun _ => ?_
  exact steady_bind (steady_modifySession fun _ => id) fun _ => steady_advance

theorem survives_deriveRes (prepared : Prepared .deriveRes s) :
    Survives (deriveRes env) (fun _ after => Prepared .resDone after) s := by
  apply prepared.survives_derivation (by decide) (by decide) (by decide) (by decide)
  intro server
  refine steady_bind steady_tick fun _ => steady_bind (steady_ofOption _) fun _ => ?_
  exact steady_bind (steady_modify fun _ => ⟨⟨rfl, rfl, rfl⟩, id⟩) fun _ => steady_advance

theorem survives_derivePsk (stays : LibraryStays env)
    (prepared : Prepared .derivePsk s) :
    Survives (derivePsk env) (fun _ after => Prepared .pskDone after) s := by
  apply Survives.modify_bind
  apply Survives.get_bind
  apply Survives.bind
  refine (survives_readHeaderDrainingEncryption stays ?_ _).mono fun header drained orphan => ?_
  · exact prepared.encrypted
  have ready : Prepared .pskDone drained := prepared_of_late (by decide) orphan
  apply Survives.ite
  · intro _
    refine ready.survives rfl (steady_bind (steady_modify fun _ => ?_) fun _ => steady_advance)
    exact ⟨⟨rfl, rfl, rfl⟩, id⟩
  · intro _
    refine ready.survives rfl (steady_bind (steady_ofOption _) fun _ => ?_)
    refine steady_bind (steady_requireCircuit _) fun _ => steady_bind steady_get fun _ => ?_
    refine steady_bind steady_tick fun _ => steady_bind (steady_ofOption _) fun _ => ?_
    exact steady_bind (steady_modifySession fun _ => id) fun _ => steady_advance

theorem survives_attestAndShutdown (stays : LibraryStays env)
    (prepared : Prepared .shutdown s) :
    Survives (attestAndShutdown env) (fun _ after => Prepared .done after) s := by
  have done : ∀ server : Server, NoOrphan server.session → Prepared .done server :=
    fun _ => prepared_of_late (by decide)
  apply Survives.get_bind
  apply Survives.ite
  · intro _
    apply Survives.bind
    apply (survives_attest stays prepared.encrypted _).mono
    intro _ attested orphan
    exact (done attested orphan).survives rfl (steady_setState _)
  · intro _
    exact (done s prepared.encrypted).survives rfl (steady_setState _)

end Handlers

section Serving

variable {env : Environment} {s : Server}

/-- From the reading of the key share on, there is only one way to go on. -/
theorem Follows.eq_next {state after : ServerState} (follows : Follows state after)
    (late : ServerState.readingKs.value ≤ state.value) : after = state.next := by
  rcases follows with isNext | ⟨later, early⟩
  · exact isNext
  · have order : ServerState.makingKs.value = ServerState.readingKs.value + 1 := rfl
    have isReading : state = .readingKs := ServerState.value_injective (by omega)
    have isMaking : after = .makingKs := ServerState.value_injective (by omega)
    rw [isReading, isMaking]
    rfl

variable (builds : ∀ now circuit, env.build now circuit = true) (stays : LibraryStays env)

include builds stays

theorem survives_serve_prepared {state : ServerState} (notDone : state ≠ .done)
    (prepared : Prepared state s) (orderly : Orderly env state s) :
    Survives (serve env true state) (fun _ after => Prepared state.next after) s := by
  cases state with
  | accept => exact survives_accept prepared
  | handshake => exact (survives_doHandshake prepared).mono fun _ _ => And.right
  | handshakeDone => exact (survives_writeHandshakeDone prepared).mono fun _ _ => And.right
  | circuitPreproc => exact survives_doPreproc builds stays prepared.encrypted
  | maskCommit => exact prepared.survives_next steady_readMaskCommitments (by decide) rfl
  | readingKs =>
      refine prepared.survives_next ?_ (by decide) rfl
      exact steady_bind (steady_readKeyshare _) fun _ => steady_setState _
  | makingKs => exact survives_createNewShare prepared
  | writingKs => exact prepared.survives_next steady_sendAdditiveShare (by decide) rfl
  | pskBinder => exact survives_doPskBinder prepared
  | readingSks => exact survives_readSksKeyshare prepared
  | finishingTph =>
      rcases orderly.1 rfl with ⟨group, selects⟩
      exact survives_finishTph prepared group selects
  | writingHsRecv => exact survives_writeHsRecv prepared
  | ectfWait => exact prepared.survives_next (steady_doEctf stays) (by decide) rfl
  | ectfDone => exact prepared.survives_next (steady_acknowledge _) (by decide) rfl
  | ksWait => exact survives_doKs prepared
  | ksDone => exact prepared.survives_next (steady_acknowledge _) (by decide) rfl
  | certWait => exact survives_doCertWait prepared (orderly.2 rfl)
  | certRecv => exact prepared.survives_next steady_writeCertRecv (by decide) rfl
  | deriveTs => exact survives_deriveTs prepared
  | gcmShareDerive => exact survives_deriveGcmShares stays prepared
  | gcmShareDone => exact prepared.survives_next (steady_acknowledge _) (by decide) rfl
  | deriveRes => exact survives_deriveRes prepared
  | resDone => exact prepared.survives_next (steady_acknowledge _) (by decide) rfl
  | derivePsk => exact survives_derivePsk stays prepared
  | pskDone => exact prepared.survives_next steady_writeCompletedPsk (by decide) rfl
  | shutdown => exact survives_attestAndShutdown stays prepared
  | done => exact absurd rfl notDone

omit builds stays

theorem serve_next {state : ServerState} (inState : s.state = state)
    (prepared : Prepared state s) :
    Ensures (serve env true state) (fun _ after => after.state = state.next) s := by
  have follows : Ensures (serve env true state) (fun _ after => Follows state after.state) s :=
    settles_serve true state s inState
  have accepts : Settles .accept (fun after => after = .handshake) (accept env) :=
    settles_accept rfl
  have preprocesses : Settles .circuitPreproc (fun after => after = .maskCommit)
      (doPreproc env true) := settles_doPreproc true nofun rfl
  have commits : Settles .maskCommit (fun after => after = .readingKs) readMaskCommitments :=
    settles_readMaskCommitments rfl
  cases state with
  | accept => exact accepts s inState
  | handshake =>
      exact (survives_doHandshake prepared).ensures.mono fun _ _ => And.left
  | handshakeDone =>
      exact (survives_writeHandshakeDone prepared).ensures.mono fun _ _ => And.left
  | circuitPreproc => exact preprocesses s inState
  | maskCommit => exact commits s inState
  | _ =>
      intro _ after ended
      exact (follows _ after ended).eq_next (by decide)

end Serving

end Server

end PracticalCrypto.Surf
