import PracticalCrypto.Surf.Server.OrderlyRuns

/-!
# A `COLLECT` message that arrives with the handshake

`do_handshake` and `write_handshake_done` have a branch for a `COLLECT` message that is
pending when the handshake ends, in which they unpack the whole receive buffer. But
`socket.pending` counts what is left of a record that was read in part: there is none
while nothing has been read, and the later states that ask for it have read their
records to the end. What the transport would answer makes no difference to any
connection. A message that comes with the handshake stays in the stream, and
`read_keyshare` reads it when it is due.
-/

namespace PracticalCrypto.Surf

open Handler

/-- The environment in which `socket.pending` answers this for a record that was read in part. -/
def Environment.withPending (env : Environment) (waiting : ℕ → ℕ) : Environment :=
  { env with pending := waiting }

namespace Server

section Entries

/-- An entry of a key share message: a group, and a key with its length. -/
def keyEntry (group : UInt16) (key : Bytes) : Bytes :=
  BigEndian.ofNat 2 group.toNat ++ (BigEndian.ofNat 2 key.length ++ key)

/-- One or two entries. -/
inductive KeyEntries : Bytes → Prop
  | one (group : UInt16) (key : Bytes) (short : key.length < 2 ^ 16) :
      KeyEntries (keyEntry group key)
  | two (group other : UInt16) (key otherKey : Bytes) (short : key.length < 2 ^ 16)
      (otherShort : otherKey.length < 2 ^ 16) :
      KeyEntries (keyEntry group key ++ keyEntry other otherKey)

theorem length_keyEntry (group : UInt16) (key : Bytes) :
    (keyEntry group key).length = key.length + 4 := by
  simp only [keyEntry, List.length_append, BigEndian.length_ofNat]
  omega

theorem KeyEntries.length_pos {key : Bytes} (entries : KeyEntries key) : 0 < key.length := by
  cases entries with
  | one => simp [length_keyEntry]
  | two => simp [length_keyEntry]

end Entries

section Pending

variable {env : Environment} {s : Server} (waiting : ℕ → ℕ)

theorem writeHandshakeDone_withPending (idle : Idle s) :
    writeHandshakeDone (env.withPending waiting) s = writeHandshakeDone env s := by
  rw [writeHandshakeDone, writeHandshakeDone, bind_of_returned (pending_eq idle),
    bind_of_returned (pending_eq idle)]
  rfl

theorem doHandshake_withPending (idle : Idle s) :
    doHandshake (env.withPending waiting) s = doHandshake env s := by
  have ticked : Idle { s with clock := s.clock + 1 } := idle
  rw [doHandshake, doHandshake, bind_of_returned tick_eq, bind_of_returned tick_eq]
  by_cases shaken : env.doHandshake s.clock = true
  · have shakenToo : (env.withPending waiting).doHandshake s.clock = true := shaken
    rw [require_true shaken, require_true shakenToo, pure_bind, pure_bind,
      bind_of_returned (pending_eq ticked), bind_of_returned (pending_eq ticked)]
    rfl
  · have shakenNeither : ¬(env.withPending waiting).doHandshake s.clock = true := shaken
    rw [require_false shaken, require_false shakenNeither]
    rfl

theorem writeHsRecv_withPending (idle : Idle s) :
    writeHsRecv (env.withPending waiting) s = writeHsRecv env s := by
  rw [writeHsRecv, writeHsRecv, bind_of_returned (pending_eq idle),
    bind_of_returned (pending_eq idle)]
  rfl

/-- The loop ends after its first record. -/
theorem readTranscript_of_read {bytes : Bytes} {read : Server} (fuel : ℕ)
    (ended : readSome env s = (.returned bytes, read)) :
    readTranscript env (fuel + 1) s =
      (.returned (),
        { read with clock := read.clock + 1, transcript := read.transcript ++ bytes }) := by
  have idle : Idle read := ensures_readSome_idle _ _ ended
  have idleStill : Idle { read with transcript := read.transcript ++ bytes } := idle
  have extended : Handler.modify (fun server : Server =>
        { server with transcript := server.transcript ++ bytes }) read =
      (.returned (), { read with transcript := read.transcript ++ bytes }) := rfl
  rw [readTranscript, bind_of_returned ended, bind_of_returned extended,
    bind_of_returned (pending_eq idleStill)]
  rfl

theorem readTranscript_withPending (fuel : ℕ) :
    readTranscript (env.withPending waiting) fuel = readTranscript env fuel := by
  cases fuel with
  | zero => rfl
  | succ fuel =>
      funext s
      have sameRead : readSome (env.withPending waiting) s = readSome env s := rfl
      rcases ended : readSome env s with ⟨bytes | _ | _, read⟩
      · rw [readTranscript_of_read fuel ended, readTranscript_of_read fuel (sameRead.trans ended)]
      · exact (bind_of_failed (sameRead.trans ended)).trans (bind_of_failed ended).symm
      · exact (bind_of_aborted (sameRead.trans ended)).trans (bind_of_aborted ended).symm

theorem doCertWait_withPending :
    doCertWait (env.withPending waiting) = doCertWait env := by
  simp only [doCertWait, readTranscript_withPending]
  rfl

theorem readHeaderDrainingEncryption_withPending (fuel : ℕ) :
    readHeaderDrainingEncryption (env.withPending waiting) fuel =
      readHeaderDrainingEncryption env fuel := by
  induction fuel with
  | zero => rfl
  | succ fuel ih =>
      simp only [readHeaderDrainingEncryption, ih]
      rfl

theorem derivePsk_withPending : derivePsk (env.withPending waiting) = derivePsk env := by
  simp only [derivePsk, readHeaderDrainingEncryption_withPending]
  rfl

theorem attestAndShutdown_withPending :
    attestAndShutdown (env.withPending waiting) = attestAndShutdown env := by
  simp only [attestAndShutdown, attest_eq_drain, readHeaderDrainingEncryption_withPending]

/-- A state that asks for pending bytes when there are none does not depend on the answer. -/
theorem serve_withPending {shouldPreproc : Bool} {state : ServerState}
    (calm : state.isQuiet = true → Idle s) :
    serve (env.withPending waiting) shouldPreproc state s = serve env shouldPreproc state s := by
  cases state with
  | handshake => exact doHandshake_withPending waiting (calm rfl)
  | handshakeDone => exact writeHandshakeDone_withPending waiting (calm rfl)
  | writingHsRecv => exact writeHsRecv_withPending waiting (calm rfl)
  | certWait => exact congrFun (doCertWait_withPending waiting) s
  | derivePsk => exact congrFun (derivePsk_withPending waiting) s
  | shutdown => exact congrFun (attestAndShutdown_withPending waiting) s
  | _ => rfl

end Pending

section Runs

variable {env : Environment} {s : Server} {shouldPreproc : Bool} {state : ServerState}

theorem ensures_accept_idle : Ensures (accept env) (fun _ after => Idle after) s := by
  refine Ensures.bind fun _ _ _ => Ensures.ofOption_bind fun _ _ => ?_
  exact Ensures.modify_bind (Ensures.modify rfl)

theorem ensures_doHandshake_idle (idle : Idle s) :
    Ensures (doHandshake env) (fun _ after => Idle after) s := by
  have ticked : Idle { s with clock := s.clock + 1 } := idle
  refine Ensures.bind (ensures_tick.mono ?_)
  rintro _ _ ⟨-, rfl⟩
  refine Ensures.require_bind fun _ => Ensures.bind ((survives_pending ticked).ensures.mono ?_)
  rintro _ _ ⟨rfl, rfl⟩
  exact Ensures.modify idle

theorem ensures_finishTph_idle (idle : Idle s) :
    Ensures (finishTph env) (fun _ after => Idle after) s := by
  refine Ensures.get_bind (Ensures.ofOption_bind fun _ _ => Ensures.require_bind fun _ => ?_)
  refine Ensures.ofOption_bind fun _ _ => Ensures.modify_bind (Ensures.bind (ensures_tick.mono ?_))
  rintro _ _ ⟨-, rfl⟩
  exact Ensures.require_bind fun _ => Ensures.modify idle

/-- A state that asks for pending bytes comes after a read or another such state. -/
theorem idle_serve (leads : state.next.isQuiet = true) (calm : state.isQuiet = true → Idle s) :
    Ensures (serve env shouldPreproc state) (fun _ after => Idle after) s := by
  cases state with
  | accept => exact ensures_accept_idle
  | handshake => exact ensures_doHandshake_idle (calm rfl)
  | readingSks =>
      refine Ensures.bind ((ensures_readKeyshare_idle _).mono ?_)
      exact fun _ _ idle => Ensures.modify idle
  | finishingTph => exact ensures_finishTph_idle (calm rfl)
  | _ => exact nomatch leads

theorem Follows.next_isQuiet {reached : ServerState} (follows : Follows state reached)
    (quiet : reached.isQuiet = true) : state.next.isQuiet = true := by
  rcases follows with rfl | ⟨earlier, early⟩
  · exact quiet
  · cases reached with
    | handshake =>
        obtain rfl : state = .accept := ServerState.value_injective (Nat.lt_one_iff.mp earlier)
        rfl
    | handshakeDone =>
        rcases Nat.le_one_iff_eq_zero_or_eq_one.mp (Nat.le_of_lt_succ earlier) with first | second
        · obtain rfl : state = .accept := ServerState.value_injective first
          rfl
        · obtain rfl : state = .handshake := ServerState.value_injective second
          rfl
    | finishingTph | writingHsRecv => exact absurd early (by decide)
    | _ => exact nomatch quiet

theorem calm_serve (inState : s.state = state) (calm : state.isQuiet = true → Idle s) :
    Ensures (serve env shouldPreproc state)
      (fun _ after => after.state.isQuiet = true → Idle after) s := by
  intro value after ended quiet
  have follows := settles_serve shouldPreproc state s inState value after ended
  exact idle_serve (follows.next_isQuiet quiet) calm value after ended

variable (waiting : ℕ → ℕ)

theorem runLoop_withPending {stopState : ServerState} {fuel : ℕ}
    (calm : s.state.isQuiet = true → Idle s) :
    runLoop (env.withPending waiting) stopState shouldPreproc fuel s =
      runLoop env stopState shouldPreproc fuel s := by
  induction fuel generalizing s with
  | zero => rfl
  | succ fuel ih =>
      apply bind_congr_of_returned
      rintro _ _ ⟨⟩
      split_ifs with stopped
      · rfl
      · rw [bind_congr_of_eq (serve_withPending waiting calm)]
        apply bind_congr_of_returned
        intro _ served ended
        exact ih (calm_serve rfl calm _ _ ended)

theorem prescribed_withPending {states : List ServerState}
    (chain : states.IsChain fun state following => following = state.next)
    (calm : ∀ state, states.head? = some state → state.isQuiet = true → Idle s) :
    Handler.forEach (fun state => do
        setState state
        serve (env.withPending waiting) shouldPreproc state) states s =
      Handler.forEach (fun state => do
        setState state
        serve env shouldPreproc state) states s := by
  induction states generalizing s with
  | nil => rfl
  | cons state later ih =>
      have entered : state.isQuiet = true → Idle { s with state } := calm state rfl
      have served : (do
          setState state
          serve (env.withPending waiting) shouldPreproc state : Handler Server Unit) s =
          (do
            setState state
            serve env shouldPreproc state : Handler Server Unit) s :=
        serve_withPending waiting entered
      refine (bind_congr_of_eq served).trans (bind_congr_of_returned ?_)
      intro _ after ended
      apply ih chain.tail
      intro following isHead quiet
      rcases later with _ | ⟨head, rest⟩
      · cases isHead
      · cases isHead
        rw [(List.isChain_cons_cons.mp chain).1] at quiet
        exact idle_serve quiet entered _ _ ended

theorem acceptAndReadMode_withPending :
    acceptAndReadMode (env.withPending waiting) s = acceptAndReadMode env s := by
  apply bind_congr_of_returned
  intro _ reset _
  apply bind_congr_of_returned
  intro _ opened _
  refine bind_congr_of_returned ?_
  intro _ accepted ended
  have idle : Idle accepted := ensures_accept_idle _ _ ended
  refine (bind_congr_of_eq (doHandshake_withPending waiting idle)).trans ?_
  apply bind_congr_of_returned
  intro _ shaken ended
  have idle : Idle shaken := ensures_doHandshake_idle idle _ _ ended
  apply bind_congr_of_returned
  rintro _ _ ⟨⟩
  by_cases parked : shaken.state = .handshakeDone
  · rw [require_true parked, pure_bind, pure_bind]
    exact bind_congr_of_eq (writeHandshakeDone_withPending waiting idle)
  · rw [require_false parked]
    rfl

/-- Whatever the transport would answer, a call of the operator does the same. -/
theorem perform_withPending (call : Call) :
    perform (env.withPending waiting) call s = perform env call s := by
  have prescribed : ∀ stopState shouldPreproc alreadyAccepted (entered : Server),
      Handler.forEach (fun state => do
          setState state
          serve (env.withPending waiting) shouldPreproc state)
        (prescribedStates stopState alreadyAccepted) entered =
      Handler.forEach (fun state => do
          setState state
          serve env shouldPreproc state)
        (prescribedStates stopState alreadyAccepted) entered := by
    intro stopState shouldPreproc alreadyAccepted entered
    apply prescribed_withPending waiting (isChain_prescribedStates stopState alreadyAccepted)
    intro state isHead quiet
    rcases head_prescribedStates isHead with rfl | rfl
    · exact nomatch quiet
    · exact nomatch quiet
  cases call with
  | serveConnection shouldPreproc =>
      refine (bind_congr_of_eq (acceptAndReadMode_withPending waiting)).trans ?_
      apply bind_congr_of_returned
      intro kind accepted ended
      have inPreproc := (survives_acceptAndReadMode.ensures kind accepted ended).1
      cases kind with
      | full =>
          apply runLoop_withPending waiting
          intro quiet
          rw [show accepted.state = .circuitPreproc from inPreproc] at quiet
          exact nomatch quiet
      | resumed => exact prescribed .done shouldPreproc true _
  | run stopState shouldPreproc => exact runLoop_withPending waiting nofun
  | runResumption stopState shouldPreproc => exact prescribed stopState shouldPreproc false _
  | setPskShare share => rfl
  | setAttestation => rfl

end Runs

section Collect

variable {env : Environment} {s : Server} {key later : Bytes}

theorem runLoop_of_served {stopState : ServerState} {shouldPreproc : Bool} {fuel : ℕ}
    {after : Server} (state : ServerState) (inState : s.state = state)
    (running : state.value < stopState.value)
    (served : serve env shouldPreproc state s = (.returned (), after)) :
    runLoop env stopState shouldPreproc (fuel + 1) s =
      runLoop env stopState shouldPreproc fuel after := by
  subst inState
  have got : (Handler.get : Handler Server Server) s = (.returned s, s) := rfl
  rw [runLoop, bind_of_returned got, if_neg (by omega), bind_of_returned served]

theorem runLoop_of_reached {stopState : ServerState} {shouldPreproc : Bool} {fuel : ℕ}
    (reached : s.state = stopState) :
    runLoop env stopState shouldPreproc (fuel + 1) s = (.returned (), s) := by
  have got : (Handler.get : Handler Server Server) s = (.returned s, s) := rfl
  rw [runLoop, bind_of_returned got, if_pos (by rw [reached])]
  rfl

theorem accept_eq {stream : Bytes} (received : env.accept s.clock = some stream) :
    accept env s = (.returned (),
      { s with
        clock := s.clock + 1
        inbox := stream
        quiet := stream.length
        outbox := []
        state := s.state.next }) := by
  rw [accept, bind_of_returned tick_eq, received]
  rfl

/-- The message is not touched when the handshake ends. -/
theorem doHandshake_eq (idle : Idle s) (shaken : env.doHandshake s.clock = true) :
    doHandshake env s =
      (.returned (), { s with clock := s.clock + 2, state := .handshakeDone }) := by
  have ticked : Idle { s with clock := s.clock + 1 } := idle
  rw [doHandshake, bind_of_returned tick_eq, require_true shaken, pure_bind,
    bind_of_returned (pending_eq ticked)]
  rfl

theorem writeSingleHeader_eq (header : MessageHeader) (works : env.write s.clock = true) :
    writeSingleHeader env header s =
      (.returned (), { s with clock := s.clock + 1, outbox := s.outbox ++ [header.toByte] }) := by
  rw [writeSingleHeader, write, bind_of_returned tick_eq, require_true works]
  rfl

theorem writeHandshakeDone_eq (idle : Idle s) (works : env.write (s.clock + 1) = true) :
    writeHandshakeDone env s = (.returned (),
      { s with
        clock := s.clock + 2
        outbox := s.outbox ++ [MessageHeader.toByte .doneHs]
        state := .circuitPreproc }) := by
  rw [writeHandshakeDone, bind_of_returned (pending_eq idle), if_neg (by simp),
    bind_of_returned (writeSingleHeader_eq _ works)]
  rfl

/-- A record is read whole, and covers the front of the buffer. -/
theorem readSome_eq {record : Bytes} (received : s.inbox = record ++ later)
    (delivered : env.readSize s.clock = record.length) (nonempty : record ≠ [])
    (short : record.length ≤ maxPlainLength) :
    readSome env s =
      (.returned record,
        { s with
          clock := s.clock + 1
          inbox := later
          quiet := later.length
          buffer := record ++ s.buffer.drop record.length }) := by
  have bytes : s.inbox.take (min (env.readSize s.clock) maxPlainLength) = record := by
    rw [delivered, Nat.min_eq_left short, received, List.take_left' rfl]
  have rest : s.inbox.drop record.length = later := by
    rw [received, List.drop_left' rfl]
  have restLength : s.inbox.length - record.length = later.length := by
    rw [← List.length_drop, rest]
  have afterTick : ∀ taken : Bytes, taken = record →
      ((Handler.require (taken ≠ []) >>= fun _ =>
          Handler.modify (fun server : Server =>
            { server with
              inbox := server.inbox.drop taken.length
              quiet := server.inbox.length - taken.length
              buffer := taken ++ server.buffer.drop taken.length }) >>= fun _ =>
            pure taken) : Handler Server Bytes) { s with clock := s.clock + 1 } =
        (.returned record,
          { s with
            clock := s.clock + 1
            inbox := later
            quiet := later.length
            buffer := record ++ s.buffer.drop record.length }) := by
    rintro taken rfl
    rw [require_true nonempty, ← restLength, ← rest]
    rfl
  exact afterTick _ bytes

theorem readKeyshare_collect
    (received : s.inbox = MessageHeader.toByte .collect :: key ++ later)
    (short : key.length + 1 ≤ maxPlainLength) (nonempty : 0 < key.length)
    (delivered : env.readSize s.clock = key.length + 1) :
    ∃ after, readKeyshare env .collect s = (.returned (), after) ∧
      after.clientPublicKey = key := by
  have unpacked : unpackKeyBytes (MessageHeader.toByte .collect :: key) = some (.collect, key) := by
    have lengths : (MessageHeader.toByte .collect :: key).length ≤ maxPlainLength ∧
        2 ≤ (MessageHeader.toByte .collect :: key).length := by
      simp only [List.length_cons]
      omega
    rw [unpackKeyBytes, if_pos lengths]
    rfl
  rw [readKeyshare, bind_of_returned (readSome_eq received delivered (List.cons_ne_nil _ _) short),
    unpacked]
  exact ⟨_, rfl, rfl⟩

theorem readKeyshareAfterHandshake_collect
    (received : s.inbox = MessageHeader.toByte .collect :: key ++ later)
    (short : key.length + 1 ≤ maxPlainLength) (nonempty : 0 < key.length)
    (delivered : env.readSize s.clock = key.length + 1) :
    ∃ after, readKeyshareAfterHandshake env s = (.returned (), after) ∧
      after.state = .makingKs ∧ after.clientPublicKey = key := by
  rcases readKeyshare_collect received short nonempty delivered with ⟨read, ended, extracted⟩
  refine ⟨{ read with state := .makingKs }, ?_, rfl, extracted⟩
  exact bind_of_returned ended

/-- The connection when the handshake has ended and the preprocessing was skipped. -/
def greeted (server : Server) (stream : Bytes) : Server :=
  { server.openConnection.enterRun with
    clock := server.clock + 5
    inbox := stream
    quiet := stream.length
    outbox := [MessageHeader.toByte .doneHs]
    state := .readingKs }

/-- A run without preprocessing reads the message that has come with the handshake. -/
theorem run_collect
    (received : env.accept s.clock = some (MessageHeader.toByte .collect :: key ++ later))
    (short : key.length + 1 ≤ maxPlainLength) (nonempty : 0 < key.length)
    (shaken : env.doHandshake (s.clock + 1) = true) (works : env.write (s.clock + 4) = true)
    (delivered : env.readSize (s.clock + 5) = key.length + 1) :
    ∃ handled, perform env (.run .makingKs false) s = (.returned (), handled) ∧
      handled.state = .makingKs ∧ handled.clientPublicKey = key := by
  have waits : (greeted s (MessageHeader.toByte .collect :: key ++ later)).inbox =
      MessageHeader.toByte .collect :: key ++ later := rfl
  rcases readKeyshareAfterHandshake_collect waits short nonempty delivered with
    ⟨handled, read, reached, extracted⟩
  refine ⟨handled, ?_, reached, extracted⟩
  calc perform env (.run .makingKs false) s
    _ = runLoop env .makingKs false 28 { s.openConnection.enterRun with state := .accept } := rfl
    _ = runLoop env .makingKs false 27 _ :=
        runLoop_of_served .accept rfl (by decide) (accept_eq received)
    _ = runLoop env .makingKs false 26 _ :=
        runLoop_of_served .handshake rfl (by decide) (doHandshake_eq rfl shaken)
    _ = runLoop env .makingKs false 25 _ :=
        runLoop_of_served .handshakeDone rfl (by decide) (writeHandshakeDone_eq rfl works)
    _ = runLoop env .makingKs false 24 (greeted s (MessageHeader.toByte .collect :: key ++ later)) :=
        runLoop_of_served .circuitPreproc rfl (by decide) rfl
    _ = runLoop env .makingKs false 23 handled :=
        runLoop_of_served .readingKs rfl (by decide) read
    _ = (.returned (), handled) := runLoop_of_reached reached

/-- Two entries with keys of one byte each. -/
def twoEntries : Bytes := keyEntry 23 [1] ++ keyEntry 24 [2]

end Collect

end Server

end PracticalCrypto.Surf
