import PracticalCrypto.Library.Handler
import PracticalCrypto.Surf.Circuit.Resumption

/-!
# Session tickets and the joint derivation of the PSK

The origin may send any number of `NewSessionTicket` messages, and the prover's TLS library
calls `derive_psk_keys` (`surf-impl/src/ssl/ThreePartyHandshake.cpp`) for each of them. The
verifier takes part in one derivation only, so the first call consumes the PSK circuits and
the later ones find none and do nothing.

A ticket whose nonce has a width without a circuit fails, and with it the processing of
messages: `ssl_read_impl` keeps the error, and the release functions return. Whether a PSK
is derived is therefore decided by the first ticket.
-/

namespace PracticalCrypto.Surf.Prover

open Handler

section Parsing

def takeBytes (length : ℕ) (input : Bytes) : Option (Bytes × Bytes) :=
  if length ≤ input.length then some (input.take length, input.drop length) else none

/-- `CBS_get_u8_length_prefixed` and `CBS_get_u16_length_prefixed`. -/
def takePrefixed (width : ℕ) (input : Bytes) : Option (Bytes × Bytes) := do
  let (length, rest) ← takeBytes width input
  takeBytes (BigEndian.toNat length) rest

/-- The parts of a `NewSessionTicket` message that the processing looks at. -/
structure SessionTicket where
  ticketNonce : Bytes
  extensions : Bytes
deriving Repr, DecidableEq

/-- The body of the message: two words, the nonce, a ticket that is not empty, the extensions. -/
def parseTicket (body : Bytes) : Option SessionTicket := do
  let (_, rest) ← takeBytes 4 body
  let (_, rest) ← takeBytes 4 rest
  let (ticketNonce, rest) ← takePrefixed 1 rest
  let (ticket, rest) ← takePrefixed 2 rest
  if ticket = [] then none
  else do
    let (extensions, rest) ← takePrefixed 2 rest
    if rest = [] then some { ticketNonce, extensions } else none

/-- The width of the nonce of a ticket, if there is a circuit for it. -/
def ticketWidth (body : Bytes) : Option NonceWidth :=
  (parseTicket body).bind fun ticket => NonceWidth.ofLength ticket.ticketNonce.length

end Parsing

/-- One run of a PSK circuit. -/
structure PskRun where
  width : NonceWidth
  rmsShare : Block
  ticketNonce : Bytes
deriving DecidableEq

/-- The members of the prover's `SSL` that the processing of a ticket reads and changes, with what
it has written to the verifier and the circuits that it has run. -/
structure TicketSsl where
  hasVerifier : Bool
  isServer : Bool
  /-- The callback `derive_psk_keys` is set. -/
  derivesPsk : Bool
  /-- `s3->write_shutdown` is not `ssl_shutdown_none`. -/
  writeShutdown : Bool
  /-- `psk_circuit`, `psk_circuit_8` and `psk_circuit_0` are not null. -/
  pskCircuits : NonceWidth → Bool
  ticketNonce : Bytes
  rmsShare : Block
  pskShare : Block
  written : List MessageHeader
  runs : List PskRun
  clock : ℕ

structure TicketEnvironment where
  write : ℕ → Bool
  /-- A PSK circuit on the prover's inputs, with the share that it leaves. -/
  pskCircuit : ℕ → PskRun → Option Block
  /-- The verifier's answer is `PSK_DONE`. -/
  pskDone : ℕ → Bool
  /-- `thrower` is set for `PSK_DONE`. -/
  throws : Bool
  /-- `tls13_derive_session_psk`, which runs without a verifier. -/
  deriveSessionPsk : ℕ → Bool
  /-- The extensions of a ticket are well formed. -/
  parseExtensions : Bytes → Bool

variable (env : TicketEnvironment)

section Processing

def ticketTick : Handler TicketSsl ℕ := do
  let ssl ← Handler.get
  Handler.modify fun ssl => { ssl with clock := ssl.clock + 1 }
  pure ssl.clock

def writeHeader (header : MessageHeader) : Handler TicketSsl Unit := do
  let now ← ticketTick
  Handler.require (env.write now = true)
  Handler.modify fun ssl => { ssl with written := ssl.written ++ [header] }

/-- `run_psk_circuit` and its variants, which refuse a circuit that is null. -/
def runPsk (present : Bool) (run : PskRun) : Handler TicketSsl Block := do
  Handler.require (present = true)
  Handler.modify fun ssl => { ssl with runs := ssl.runs ++ [run] }
  let now ← ticketTick
  Handler.ofOption (env.pskCircuit now run)

/-- The second half of `derive_psk_keys`, for a width that there is a circuit for. -/
def derivePskOf (ssl : TicketSsl) (width : NonceWidth) : Handler TicketSsl Unit := do
  writeHeader env width.header
  Handler.modify fun ssl => { ssl with pskCircuits := fun _ => false }
  let share ← runPsk env (ssl.pskCircuits width)
    { width, rmsShare := ssl.rmsShare, ticketNonce := ssl.ticketNonce }
  Handler.modify fun ssl => { ssl with pskShare := share }
  let now ← ticketTick
  Handler.require (env.pskDone now = true)
  if env.throws = true then Handler.abort else pure ()

def derivePskKeys : Handler TicketSsl Unit := do
  let ssl ← Handler.get
  Handler.require (ssl.isServer = false ∧ ssl.hasVerifier = true)
  -- the guard against further tickets
  if ssl.pskCircuits .one = false ∧ ssl.pskCircuits .eight = false ∧ ssl.pskCircuits .zero = false
  then pure ()
  else do
    let width ← Handler.ofOption (NonceWidth.ofLength ssl.ticketNonce.length)
    derivePskOf env ssl width

/-- `tls13_process_new_session_ticket` and `tls13_create_session_with_ticket`. -/
def processNewSessionTicket (body : Bytes) : Handler TicketSsl Unit := do
  let ssl ← Handler.get
  if ssl.writeShutdown = true then pure ()
  else do
    let ticket ← Handler.ofOption (parseTicket body)
    Handler.modify fun ssl => { ssl with ticketNonce := ticket.ticketNonce }
    if ssl.hasVerifier = false ∧ ssl.derivesPsk = false then do
      let now ← ticketTick
      Handler.require (env.deriveSessionPsk now = true)
    else pure ()
    if ssl.hasVerifier = true ∧ ssl.derivesPsk = true then derivePskKeys env else pure ()
    Handler.require (env.parseExtensions ticket.extensions = true)

/-- The tickets of a connection. The first that fails ends the processing of messages. -/
def processTickets (bodies : List Bytes) : Handler TicketSsl Unit :=
  Handler.forEach (processNewSessionTicket env) bodies

end Processing

section Once

variable {env} {s : TicketSsl}

/-- What the prover has done for the PSK so far. -/
structure Progress where
  written : List MessageHeader
  runs : List PskRun
  pskCircuits : NonceWidth → Bool

def TicketSsl.progress (ssl : TicketSsl) : Progress := ⟨ssl.written, ssl.runs, ssl.pskCircuits⟩

/-- The progress so far has this property. -/
def Has (holds : Progress → Prop) (ssl : TicketSsl) : Prop := holds ssl.progress

/-- The circuits have been consumed by a run that was announced. -/
def announced (s : TicketSsl) (width : NonceWidth) : Progress :=
  ⟨s.written ++ [width.header], s.runs, fun _ => false⟩

/-- Moreover, the circuit of that width has been run. -/
def derived (s : TicketSsl) (width : NonceWidth) : Progress :=
  ⟨s.written ++ [width.header],
    s.runs ++ [{ width, rmsShare := s.rmsShare, ticketNonce := s.ticketNonce }], fun _ => false⟩

theorem ticketTick_eq :
    ticketTick s = (.returned s.clock, { s with clock := s.clock + 1 }) := rfl

theorem writeHeader_written (header : MessageHeader) (works : env.write s.clock = true) :
    writeHeader env header s =
      (.returned (), { s with clock := s.clock + 1, written := s.written ++ [header] }) := by
  rw [writeHeader, bind_of_returned ticketTick_eq, require_true works]
  rfl

theorem writeHeader_refused (header : MessageHeader) (fails : ¬env.write s.clock = true) :
    writeHeader env header s = (.failed, { s with clock := s.clock + 1 }) := by
  rw [writeHeader, bind_of_returned ticketTick_eq, require_false fails]
  rfl

theorem silent_ticketTick : Silent TicketSsl.progress ticketTick := fun _ => rfl

theorem leaves_runPsk {holds : Progress → Prop} {present : Bool} {run : PskRun} {reached : Progress}
    (missing : present = false → Has holds s)
    (isReached : ⟨s.written, s.runs ++ [run], s.pskCircuits⟩ = reached) (ran : holds reached) :
    Leaves (Has holds) (runPsk env present run)
      (fun _ ssl => ssl.progress = reached) s := by
  cases present with
  | false => exact ⟨missing rfl, Ensures.bind Ensures.fail⟩
  | true =>
      have kept (ssl : TicketSsl) (same : ssl.progress = reached) : Has holds ssl := by
        simpa only [Has, same] using ran
      rw [runPsk, require_true rfl, pure_bind]
      apply Leaves.modify_bind
      apply Leaves.silent_bind silent_ticketTick
      · intro ticked same
        exact kept ticked (same.trans isReached)
      · intro now ticked same
        have there := same.trans isReached
        cases env.pskCircuit now run with
        | none => exact ⟨kept ticked there, Ensures.fail⟩
        | some share => exact Leaves.pure (kept ticked there) there

/-- The derivation can only stop before the header, before the circuit or after it. -/
theorem leaves_derivePskOf {holds : Progress → Prop} {width : NonceWidth}
    (refused : ¬env.write s.clock = true → Has holds s)
    (missing : s.pskCircuits width = false → holds (announced s width))
    (ran : holds (derived s width)) :
    Leaves (Has holds) (derivePskOf env s width)
      (fun _ ssl => ssl.progress = derived s width) s := by
  by_cases works : env.write s.clock = true
  · apply Leaves.returned_bind (writeHeader_written _ works)
    apply Leaves.modify_bind
    apply (leaves_runPsk missing rfl ran).bind
    intro share after _ same
    have kept (ssl : TicketSsl) (there : ssl.progress = derived s width) : Has holds ssl := by
      simpa only [Has, there] using ran
    apply Leaves.modify_bind
    apply Leaves.silent_bind silent_ticketTick
    · intro ticked sameTicked
      exact kept ticked (sameTicked.trans same)
    · intro now ticked sameTicked
      have there := sameTicked.trans same
      apply Leaves.require_bind fun _ => kept ticked there
      intro _
      apply Leaves.ite
      · intro _
        exact ⟨kept ticked there, Ensures.abort⟩
      · intro _
        exact Leaves.pure (kept ticked there) there
  · have fails := writeHeader_refused (s := s) width.header works
    constructor
    · rw [derivePskOf, bind_of_failed fails]
      exact refused works
    · intro _ _ ended
      rw [derivePskOf, bind_of_failed fails] at ended
      cases ended

/-- At most one header and at most one run, and no circuit is left after the header. -/
structure AtMostOnce (progress : Progress) : Prop where
  written : progress.written.length ≤ 1
  runs : progress.runs.length ≤ progress.written.length
  consumed : progress.written ≠ [] → ∀ width, progress.pskCircuits width = false

theorem nothing_written (once : Has AtMostOnce s)
    (available : ¬(s.pskCircuits .one = false ∧ s.pskCircuits .eight = false ∧
      s.pskCircuits .zero = false)) : s.written = [] ∧ s.runs = [] := by
  have unwritten : s.written = [] := by
    by_contra written
    have consumed := once.consumed written
    exact available ⟨consumed .one, consumed .eight, consumed .zero⟩
  have runs := once.runs
  simp only [TicketSsl.progress, unwritten, List.length_nil, Nat.le_zero_eq,
    List.length_eq_zero_iff] at runs
  exact ⟨unwritten, runs⟩

theorem leaves_derivePskKeys (once : Has AtMostOnce s) :
    Leaves (Has AtMostOnce) (derivePskKeys env)
      (fun _ => Has AtMostOnce) s := by
  apply Leaves.get_bind
  apply Leaves.require_bind fun _ => once
  intro _
  apply Leaves.ite
  · intro _
    exact Leaves.pure once once
  · intro available
    rcases nothing_written once available with ⟨unwritten, unrun⟩
    have consumed (width : NonceWidth) : AtMostOnce (announced s width) := by
      constructor <;> simp [announced, unwritten, unrun]
    have ran (width : NonceWidth) : AtMostOnce (derived s width) := by
      constructor <;> simp [derived, unwritten, unrun]
    apply Leaves.ofOption_bind fun _ => once
    intro width _
    apply (leaves_derivePskOf (fun _ => once) (fun _ => consumed width) (ran width)).mono
    intro _ ssl same
    simpa only [Has, same] using ran width

theorem leaves_processNewSessionTicket {holds : Progress → Prop} {body : Bytes} (here : Has holds s)
    (derives : ∀ ticket, parseTicket body = some ticket →
      Leaves (Has holds) (derivePskKeys env) (fun _ => Has holds)
        { s with ticketNonce := ticket.ticketNonce }) :
    Leaves (Has holds) (processNewSessionTicket env body) (fun _ => Has holds) s := by
  apply Leaves.get_bind
  apply Leaves.ite
  · intro _
    exact Leaves.pure here here
  · intro _
    apply Leaves.ofOption_bind fun _ => here
    intro ticket parsed
    apply Leaves.modify_bind
    by_cases plain : s.hasVerifier = false ∧ s.derivesPsk = false
    · have alone : ¬(s.hasVerifier = true ∧ s.derivesPsk = true) := by simp [plain.1]
      simp only [if_pos plain, if_neg alone]
      have kept (ticked : TicketSsl) (same : ticked.progress = s.progress) : Has holds ticked := by
        simpa only [Has, same] using here
      apply Leaves.silent_bind silent_ticketTick
      · intro ticked same
        exact kept ticked same
      · intro now ticked same
        have kept := kept ticked same
        apply Leaves.require_bind fun _ => kept
        intro _
        exact Leaves.require kept fun _ => kept
    · simp only [if_neg plain]
      apply Leaves.ite
      · intro _
        apply (derives ticket parsed).bind
        intro _ after _ kept
        exact Leaves.require kept fun _ => kept
      · intro _
        exact Leaves.require here fun _ => here

theorem leaves_processTickets {holds : Progress → Prop}
    (derives : ∀ ssl, Has holds ssl →
      Leaves (Has holds) (derivePskKeys env) (fun _ => Has holds) ssl)
    (here : Has holds s) (bodies : List Bytes) :
    Leaves (Has holds) (processTickets env bodies) (fun _ => Has holds) s := by
  have each (body : Bytes) (later : List Bytes) (ssl : TicketSsl) (hasIt : Has holds ssl) :
      Leaves (Has holds) (processNewSessionTicket env body) (fun _ => Has holds) ssl := by
    apply leaves_processNewSessionTicket hasIt
    intro ticket _
    exact derives { ssl with ticketNonce := ticket.ticketNonce } hasIt
  exact @Leaves.forEach _ _ _ _ _ (fun _ => Has holds) bodies each (fun _ hasIt => hasIt) here

end Once

section FirstTicket

variable {env} {s : TicketSsl} {body : Bytes}

/-- A connection to the origin whose PSK circuits have been preprocessed. -/
structure Preprocessed (ssl : TicketSsl) : Prop where
  hasVerifier : ssl.hasVerifier = true
  isServer : ssl.isServer = false
  derivesPsk : ssl.derivesPsk = true
  writeShutdown : ssl.writeShutdown = false
  pskCircuits : ∀ width, ssl.pskCircuits width = true
  written : ssl.written = []
  runs : ssl.runs = []

/-- One header and one run, both for this width, and no circuit is left. -/
structure OnceFor (width : NonceWidth) (progress : Progress) : Prop where
  written : progress.written = [width.header]
  runs : progress.runs.map PskRun.width = [width]
  consumed : ∀ other, progress.pskCircuits other = false

theorem leaves_derivePskKeys_consumed {width : NonceWidth} (once : Has (OnceFor width) s) :
    Leaves (Has (OnceFor width)) (derivePskKeys env) (fun _ => Has (OnceFor width)) s := by
  apply Leaves.get_bind
  apply Leaves.require_bind fun _ => once
  intro _
  apply Leaves.ite
  · intro _
    exact Leaves.pure once once
  · intro available
    have consumed := once.consumed
    exact absurd ⟨consumed .one, consumed .eight, consumed .zero⟩ available

/-- The first ticket reaches the derivation unless it is malformed. -/
theorem Preprocessed.leaves_processNewSessionTicket {holds after : Progress → Prop}
    (ready : Preprocessed s) (malformed : parseTicket body = none → Has holds s)
    (derives : ∀ ticket, parseTicket body = some ticket →
      Leaves (Has holds) (derivePskKeys env) (fun _ => Has after)
        { s with ticketNonce := ticket.ticketNonce })
    (kept : ∀ progress, after progress → holds progress) :
    Leaves (Has holds) (processNewSessionTicket env body) (fun _ => Has after) s := by
  apply Leaves.get_bind
  simp only [ready.writeShutdown, ready.hasVerifier, ready.derivesPsk]
  apply Leaves.ofOption_bind malformed
  intro ticket parsed
  apply Leaves.modify_bind
  apply (derives ticket parsed).bind
  intro _ ssl _ derived
  exact Leaves.require (kept _ derived) fun _ => derived

theorem Preprocessed.leaves_derivePskKeys {holds after : Progress → Prop} (ready : Preprocessed s)
    (unsupported : NonceWidth.ofLength s.ticketNonce.length = none → Has holds s)
    (derives : ∀ width, NonceWidth.ofLength s.ticketNonce.length = some width →
      Leaves (Has holds) (derivePskOf env s width) (fun _ => Has after) s) :
    Leaves (Has holds) (derivePskKeys env) (fun _ => Has after) s := by
  apply Leaves.get_bind
  apply Leaves.require_bind
  · intro refused
    exact absurd ⟨ready.isServer, ready.hasVerifier⟩ refused
  · intro _
    apply Leaves.ite
    · intro consumed
      simp [ready.pskCircuits] at consumed
    · intro _
      exact Leaves.ofOption_bind unsupported derives

theorem Preprocessed.withNonce (ready : Preprocessed s) (ticketNonce : Bytes) :
    Preprocessed { s with ticketNonce } :=
  ⟨ready.hasVerifier, ready.isServer, ready.derivesPsk, ready.writeShutdown, ready.pskCircuits,
    ready.written, ready.runs⟩

theorem Preprocessed.onceFor_derived (ready : Preprocessed s) (width : NonceWidth) :
    OnceFor width (derived s width) := by
  constructor <;> simp [derived, ready.written, ready.runs]

theorem Preprocessed.leaves_derivePskOf (ready : Preprocessed s)
    (writes : ∀ now, env.write now = true) (width : NonceWidth) :
    Leaves (Has (OnceFor width)) (derivePskOf env s width) (fun _ => Has (OnceFor width)) s := by
  have ran := ready.onceFor_derived width
  have present (missing : s.pskCircuits width = false) : OnceFor width (announced s width) := by
    simp [ready.pskCircuits] at missing
  apply (Prover.leaves_derivePskOf (fun refused => absurd (writes _) refused) present ran).mono
  intro _ ssl same
  simpa only [Has, same] using ran

/-- A supported first ticket derives, and the later ones change nothing. -/
theorem Preprocessed.leaves_supported (ready : Preprocessed s)
    (writes : ∀ now, env.write now = true) {width : NonceWidth}
    (supported : ticketWidth body = some width) (later : List Bytes) :
    Leaves (Has (OnceFor width)) (processTickets env (body :: later))
      (fun _ => Has (OnceFor width)) s := by
  rcases Option.bind_eq_some_iff.mp supported with ⟨ticket, parsed, isWidth⟩
  have first : Leaves (Has (OnceFor width)) (processNewSessionTicket env body)
      (fun _ => Has (OnceFor width)) s := by
    apply ready.leaves_processNewSessionTicket
    · intro malformed
      simp [parsed] at malformed
    · intro found isTicket
      obtain rfl : ticket = found := by simpa [parsed] using isTicket
      have ready := ready.withNonce ticket.ticketNonce
      apply ready.leaves_derivePskKeys
      · intro unsupported
        simp [isWidth] at unsupported
      · intro other isOther
        obtain rfl : width = other := by simpa [isWidth] using isOther
        exact ready.leaves_derivePskOf writes width
    · exact fun _ once => once
  apply first.bind
  intro _ ssl _ once
  exact leaves_processTickets (fun _ => leaves_derivePskKeys_consumed) once later

/-- An unsupported or malformed first ticket fails, and the later ones are never processed. -/
theorem Preprocessed.leaves_unsupported (ready : Preprocessed s)
    (unsupported : ticketWidth body = none) (later : List Bytes) :
    Leaves (Has (· = s.progress)) (processTickets env (body :: later))
      (fun _ => Has (fun _ => False)) s := by
  have first : Leaves (Has (· = s.progress)) (processNewSessionTicket env body)
      (fun _ => Has (fun _ => False)) s := by
    apply ready.leaves_processNewSessionTicket
    · exact fun _ => rfl
    · intro ticket parsed
      apply (ready.withNonce ticket.ticketNonce).leaves_derivePskKeys
      · exact fun _ => rfl
      · intro width isWidth
        simp [ticketWidth, parsed, isWidth] at unsupported
    · exact fun _ never => never.elim
  apply first.bind
  intro _ _ _ never
  exact never.elim

/-- Over all tickets of a connection the prover announces and runs at most one derivation, and
the first ticket decides whether there is one. -/
theorem processTickets_derivesOnce (ready : Preprocessed s) (bodies : List Bytes) :
    ((processTickets env bodies s).2.written.length ≤ 1 ∧
      (processTickets env bodies s).2.runs.length ≤ 1) ∧
    ((∀ now, env.write now = true) → ∀ width, bodies.head?.bind ticketWidth = some width →
      (processTickets env bodies s).2.written = [width.header] ∧
      (processTickets env bodies s).2.runs.map PskRun.width = [width]) ∧
    (bodies.head?.bind ticketWidth = none →
      (processTickets env bodies s).2.written = [] ∧
      (processTickets env bodies s).2.runs = []) := by
  refine ⟨?_, ?_, ?_⟩
  · have start : Has AtMostOnce s := by
      constructor <;> simp [TicketSsl.progress, ready.written, ready.runs]
    have once : Has AtMostOnce (processTickets env bodies s).2 :=
      (leaves_processTickets (fun _ => leaves_derivePskKeys) start bodies).ended
    exact ⟨once.written, once.runs.trans once.written⟩
  · intro writes width supported
    cases bodies with
    | nil => simp at supported
    | cons body later =>
        have once := (ready.leaves_supported writes supported later).ended
        exact ⟨once.written, once.runs⟩
  · intro unsupported
    cases bodies with
    | nil => exact ⟨ready.written, ready.runs⟩
    | cons body later =>
        have same : (processTickets env (body :: later) s).2.progress = s.progress :=
          (ready.leaves_unsupported unsupported later).ended
        exact ⟨(congrArg Progress.written same).trans ready.written,
          (congrArg Progress.runs same).trans ready.runs⟩

/-- A connection before its first ticket. -/
def freshSsl : TicketSsl where
  hasVerifier := true
  isServer := false
  derivesPsk := true
  writeShutdown := false
  pskCircuits := fun _ => true
  ticketNonce := []
  rmsShare := 0
  pskShare := 0
  written := []
  runs := []
  clock := 0

/-- Nothing fails. -/
def workingEnvironment : TicketEnvironment where
  write := fun _ => true
  pskCircuit := fun _ _ => some 0
  pskDone := fun _ => true
  throws := false
  deriveSessionPsk := fun _ => true
  parseExtensions := fun _ => true

/-- A ticket with a nonce of this many zero bytes. -/
def ticketOfLength (length : UInt8) : Bytes :=
  List.replicate 8 0 ++ length :: List.replicate length.toNat 0 ++ [0, 1, 7, 0, 0]

theorem preprocessed_freshSsl : Preprocessed freshSsl :=
  ⟨rfl, rfl, rfl, rfl, fun _ => rfl, rfl, rfl⟩

theorem freshSsl_derivesOnce :
    Preprocessed freshSsl ∧ (∀ now, workingEnvironment.write now = true) ∧
    (processTickets workingEnvironment [ticketOfLength 8, ticketOfLength 1] freshSsl).2.written =
      [.derivePsk8] :=
  ⟨preprocessed_freshSsl, fun _ => rfl,
    ((processTickets_derivesOnce preprocessed_freshSsl [ticketOfLength 8, ticketOfLength 1]).2.1
      (fun _ => rfl) .eight (by decide)).1⟩

/-- Nothing is derived for the second ticket, although its nonce is supported. -/
theorem freshSsl_unsupportedFirst :
    Preprocessed freshSsl ∧ ticketWidth (ticketOfLength 1) = some .one ∧
    (processTickets workingEnvironment [ticketOfLength 2, ticketOfLength 1] freshSsl).2.written =
      [] ∧
    (processTickets workingEnvironment [ticketOfLength 2, ticketOfLength 1] freshSsl).2.runs =
      [] :=
  ⟨preprocessed_freshSsl, by decide, by decide, by decide⟩

end FirstTicket

end PracticalCrypto.Surf.Prover
