import PracticalCrypto.Library.Wires
import PracticalCrypto.Surf.Channel.Transparency
import PracticalCrypto.Surf.Circuit.Preprocessing

/-!
# The evaluation of a circuit over the channel

This file embeds `exec_small_internal` of `surf-impl/src/ssl/EmpWrapperAG2PC.cpp` with
what it sends and receives. The library evaluates the circuit; to this file it is any
program that talks to the peer through the wrapper. The operations of the wrapper
return nothing, and an operation of the transport that fails sets the flag
`io_failed`, which stays set.

The flag is read before and after the online phase of the library. In an amortised
circuit only BOB learns the output there and forwards it to ALICE, and nobody reads the
flag after that.

`Contract` says what the library is relied on for. It is about the executions that a
preprocessing is made for: the online phase of a single execution uses up the garbled
tables, and a second one on them would go through with a wrong result.
-/

namespace PracticalCrypto.Surf.Execution

open EmpWrapper Handler Wires

inductive Party where
  | alice
  | bob
deriving DecidableEq, Repr

/-- A program of the library, by what it does with the channel. -/
inductive Online where
  | finished (tempOut : List Bool)
  /-- A `std::exception` leaves the program. -/
  | threw
  | send (data : Bytes) (next : Online)
  | flush (next : Online)
  | recv (nbyte : ℕ) (next : Bytes → Online)

section Model

variable (transport : Transport)

/-- Run a program of the library over a wrapper `EmpWrapper<>`. -/
def Online.run : Online → Handler EmpWrapper (Option (List Bool))
  | finished tempOut => pure (some tempOut)
  | threw => pure none
  | send data next => do
      sendDataInternal transport defaultConfig data
      next.run
  | flush next => do
      EmpWrapper.flush transport defaultConfig
      next.run
  | recv nbyte next => do
      let bytes ← recvDataInternal transport defaultConfig nbyte
      (next bytes).run

/-- The array `as_bool`: the first half holds the inputs of BOB, the second those of ALICE. -/
def Party.asBool (party : Party) (inSecret : Bytes) : List Bool :=
  let unused := List.replicate (8 * inSecret.length) false
  match party with
  | alice => unused ++ ofBytes inSecret
  | bob => ofBytes inSecret ++ unused

/-- The end of `exec_small_internal` for an amortised circuit, of which only BOB has the output. -/
def forwardResult (party : Party) (outputSize : ℕ) (tempOut : List Bool) :
    Handler EmpWrapper Bytes :=
  match party with
  | .bob => do
      let output := toBytes outputSize tempOut
      sendDataInternal transport defaultConfig output
      EmpWrapper.flush transport defaultConfig
      pure output
  | .alice => recvDataInternal transport defaultConfig outputSize

/-- `exec_small_internal` behind the online phase. -/
def concludeOnline (kind : Ag2pcKind) (party : Party) (outputSize : ℕ) :
    Option (List Bool) → Handler EmpWrapper (Bool × Bytes)
  | none => do
      markIoFailed
      pure (false, List.replicate outputSize 0)
  | some tempOut => do
      let wrapper ← Handler.get
      if wrapper.ioFailed then pure (false, List.replicate outputSize 0)
      else
        match kind.iters with
        | none => pure (true, toBytes outputSize tempOut)
        | some _ => do
            let output ← forwardResult transport party outputSize tempOut
            pure (true, output)

/-- `exec_small_internal`: the value it returns and the array `output` it leaves. -/
def execSmallInternal (online : List Bool → Online) (kind : Ag2pcKind) (party : Party)
    (inSecret output : Bytes) : Handler EmpWrapper (Bool × Bytes) := do
  let wrapper ← Handler.get
  if wrapper.ioFailed then pure (false, output)
  else do
    let ended ← (online (party.asBool inSecret)).run transport
    concludeOnline transport kind party output.length ended

end Model

section Latch

/-- Every request that the transport was given between two states has succeeded. -/
def Worked (transport : Transport) (before after : EmpWrapper) : Prop :=
  ∀ request, before.clock ≤ request → request < after.clock → transport.works request = true

/-- The flag stays set, and it is clear only if every request has succeeded. -/
structure Latched (transport : Transport) (before after : EmpWrapper) : Prop where
  later : before.clock ≤ after.clock
  wasClear : after.ioFailed = false → before.ioFailed = false
  worked : after.ioFailed = false → Worked transport before after

variable {transport : Transport}

theorem Latched.of_same {before after : EmpWrapper} (sameClock : after.clock = before.clock)
    (sameFlag : after.ioFailed = before.ioFailed) : Latched transport before after where
  later := sameClock.ge
  wasClear clear := sameFlag.symm.trans clear
  worked _ request started ended := by omega

theorem Latched.of_failed {before after : EmpWrapper} (later : before.clock ≤ after.clock)
    (failed : after.ioFailed = true) : Latched transport before after where
  later := later
  wasClear clear := by simp [failed] at clear
  worked clear := by simp [failed] at clear

theorem Worked.trans {first second third : EmpWrapper} (before : Worked transport first second)
    (after : Worked transport second third) : Worked transport first third := by
  intro request started ended
  rcases Nat.lt_or_ge request second.clock with early | late
  · exact before request started early
  · exact after request late ended

instance : IsPreorder EmpWrapper (Latched transport) where
  refl _ := .of_same rfl rfl
  trans _ _ _ first second :=
    { later := first.later.trans second.later
      wasClear := fun clear => first.wasClear (second.wasClear clear)
      worked := fun clear => (first.worked (second.wasClear clear)).trans (second.worked clear) }

theorem keeps_modify_same {change : EmpWrapper → EmpWrapper}
    (sameClock : ∀ s, (change s).clock = s.clock)
    (sameFlag : ∀ s, (change s).ioFailed = s.ioFailed) :
    Keeps (Latched transport) (modify change) :=
  keeps_modify fun s => .of_same (sameClock s) (sameFlag s)

theorem keeps_markIoFailed : Keeps (Latched transport) markIoFailed :=
  keeps_modify fun _ => .of_failed le_rfl rfl

/-- A request either succeeds or is answered by setting the flag. -/
theorem keeps_request {α : Type} {attempt refused : Handler EmpWrapper α}
    (attempts : Keeps (Latched transport) attempt)
    (refuses : ∀ s, s.clock ≤ (refused s).2.clock ∧ (refused s).2.ioFailed = true) :
    Keeps (Latched transport)
      (tick >>= fun now => if transport.works now then attempt else refused) := by
  intro s
  change Latched transport s
    ((if transport.works s.clock then attempt else refused) { s with clock := s.clock + 1 }).2
  split_ifs with works
  · have counted : Latched transport s { s with clock := s.clock + 1 } := by
      refine ⟨Nat.le_succ _, id, fun _ request started ended => ?_⟩
      have only : request = s.clock := Nat.le_antisymm (Nat.le_of_lt_succ ended) started
      rwa [only]
    exact IsTrans.trans _ _ _ counted (attempts _)
  · rcases refuses { s with clock := s.clock + 1 } with ⟨later, failed⟩
    exact .of_failed (Nat.le_of_succ_le later) failed

theorem keeps_processWrite (bytes : Bytes) :
    Keeps (Latched transport) (processWrite transport bytes) := by
  refine keeps_ite (keeps_pure ()) ?_
  apply keeps_request
  · exact keeps_modify_same (fun _ => rfl) fun _ => rfl
  · exact fun _ => ⟨le_rfl, rfl⟩

theorem keeps_processRead (nbyte : ℕ) :
    Keeps (Latched transport) (processRead transport nbyte) := by
  refine keeps_ite (keeps_pure _) ?_
  apply keeps_request
  · refine keeps_bind keeps_get fun _ => keeps_bind (keeps_require _) fun _ => ?_
    exact keeps_bind (keeps_modify_same (fun _ => rfl) fun _ => rfl) fun _ => keeps_pure _
  · exact fun _ => ⟨le_rfl, rfl⟩

theorem keeps_track (count : RwCounter → RwCounter) : Keeps (Latched transport) (track count) :=
  keeps_modify_same (fun _ => rfl) fun _ => rfl

theorem keeps_flush (config : ChannelConfig) :
    Keeps (Latched transport) (EmpWrapper.flush transport config) := by
  have headed : Keeps (Latched transport) writeHeader :=
    keeps_bind (keeps_modify_same (fun _ => rfl) fun _ => rfl) fun _ => keeps_track _
  refine keeps_bind keeps_get fun wrapper => keeps_ite (keeps_pure ()) ?_
  apply keeps_ite (keeps_bind headed fun _ => ?_)
  all_goals
    refine keeps_bind keeps_get fun wrapper => ?_
    apply keeps_ite _ (keeps_bind (keeps_processWrite _) fun _ => ?_)
    all_goals
      exact keeps_bind (keeps_track _) fun _ => keeps_modify_same (fun _ => rfl) fun _ => rfl

theorem keeps_sendDataInternal (config : ChannelConfig) (data : Bytes) :
    Keeps (Latched transport) (sendDataInternal transport config data) := by
  have buffered : Keeps (Latched transport) (bufferData data) := by
    refine keeps_bind keeps_get fun wrapper => keeps_ite ?_ keeps_abort
    exact keeps_modify_same (fun _ => rfl) fun _ => rfl
  have flushed : Keeps (Latched transport) (flushIfFull transport config) :=
    keeps_bind keeps_get fun wrapper => keeps_ite (keeps_flush config) (keeps_pure ())
  have sentAtOnce : Keeps (Latched transport) (sendAtOnce transport data) := by
    refine keeps_bind keeps_get fun wrapper => ?_
    exact keeps_ite (keeps_track _) (keeps_bind (keeps_processWrite data) fun _ => keeps_track _)
  unfold sendDataInternal
  apply keeps_ite
  · exact keeps_bind buffered fun _ => keeps_bind flushed fun _ => keeps_track _
  · exact keeps_bind sentAtOnce fun _ => keeps_track _

theorem keeps_readBytes (nbyte : ℕ) : Keeps (Latched transport) (readBytes nbyte) := by
  refine keeps_bind keeps_get fun wrapper => keeps_ite ?_ keeps_abort
  exact keeps_bind (keeps_modify_same (fun _ => rfl) fun _ => rfl) fun _ => keeps_pure _

theorem keeps_nextSize (config : ChannelConfig) (toRead : ℕ) :
    Keeps (Latched transport) (nextSize transport config toRead) := by
  refine keeps_ite (keeps_bind (keeps_processRead headerSize) fun header => ?_) (keeps_pure _)
  cases header with
  | none => exact keeps_pure none
  | some bytes => exact keeps_bind (keeps_track _) fun _ => keeps_pure _

theorem keeps_refill (start nbyte : ℕ) :
    Keeps (Latched transport) (refill transport start nbyte) := by
  refine keeps_bind (keeps_modify_same (fun _ => rfl) fun _ => rfl) fun _ => ?_
  exact keeps_bind (keeps_processRead nbyte) fun read =>
    keeps_modify_same (fun _ => rfl) fun _ => rfl

/-- With headers, no call asks the transport for anything but bytes. -/
theorem keeps_recvDataInternal {config : ChannelConfig} (headers : config.prependHeader = true)
    (nbyte : ℕ) : Keeps (Latched transport) (recvDataInternal transport config nbyte) := by
  have drained : ∀ start, Keeps (Latched transport) (drainPending transport config start) := by
    intro start
    refine keeps_bind keeps_get fun wrapper => ?_
    rw [if_pos (Or.inl headers)]
    exact keeps_pure ()
  have more : ∀ first toRead,
      Keeps (Latched transport) (readMore transport config first toRead) := by
    intro first toRead
    refine keeps_bind (keeps_nextSize config toRead) fun size => ?_
    cases size with
    | none => exact keeps_pure _
    | some size =>
        apply keeps_ite
        · exact keeps_bind keeps_markIoFailed fun _ => keeps_pure _
        · refine keeps_bind (keeps_refill 0 size) fun _ => keeps_bind (drained size) fun _ => ?_
          exact keeps_bind (keeps_readBytes toRead) fun _ => keeps_pure _
  refine keeps_bind keeps_get fun wrapper => ?_
  refine keeps_ite (keeps_pure _) (keeps_ite ?_ (keeps_ite ?_ ?_))
  · refine keeps_bind (keeps_processRead nbyte) fun read => ?_
    exact keeps_bind (keeps_track _) fun _ => keeps_pure _
  · exact keeps_readBytes nbyte
  · exact keeps_bind (keeps_readBytes _) fun first => more first _

theorem keeps_run (online : Online) : Keeps (Latched transport) (online.run transport) := by
  induction online with
  | finished tempOut => exact keeps_pure _
  | threw => exact keeps_pure _
  | send data next ih => exact keeps_bind (keeps_sendDataInternal defaultConfig data) fun _ => ih
  | flush next ih => exact keeps_bind (keeps_flush defaultConfig) fun _ => ih
  | recv nbyte next ih => exact keeps_bind (keeps_recvDataInternal rfl nbyte) fun bytes => ih bytes

theorem keeps_forwardResult (party : Party) (outputSize : ℕ) (tempOut : List Bool) :
    Keeps (Latched transport) (forwardResult transport party outputSize tempOut) := by
  cases party with
  | alice => exact keeps_recvDataInternal rfl outputSize
  | bob =>
      refine keeps_bind (keeps_sendDataInternal defaultConfig _) fun _ => ?_
      exact keeps_bind (keeps_flush defaultConfig) fun _ => keeps_pure _

end Latch

section Exchange

/-- The transport if every request succeeded. -/
def healed (transport : Transport) : Transport := { transport with works := fun _ => true }

/-- If every request of the first handler has succeeded, the second one does the same. -/
structure Undisturbed {α : Type} (transport : Transport) (prog healthy : Handler EmpWrapper α) :
    Prop where
  keeps : Keeps (Latched transport) prog
  same : ∀ s value after, prog s = (.returned value, after) → Worked transport s after →
    healthy s = (.returned value, after)

variable {transport : Transport} {α β : Type}

theorem Undisturbed.of_keeps {prog : Handler EmpWrapper α} (keeps : Keeps (Latched transport) prog) :
    Undisturbed transport prog prog :=
  ⟨keeps, fun _ _ _ ended _ => ended⟩

theorem Undisturbed.bind {prog healthy : Handler EmpWrapper α}
    {next healthyNext : α → Handler EmpWrapper β} (first : Undisturbed transport prog healthy)
    (rest : ∀ value, Undisturbed transport (next value) (healthyNext value)) :
    Undisturbed transport (prog >>= next) (healthy >>= healthyNext) where
  keeps := keeps_bind first.keeps fun value => (rest value).keeps
  same s value after ended worked := by
    rcases firstEnded : prog s with ⟨found | _ | _, middle⟩
    · rw [bind_of_returned firstEnded] at ended
      have before := (first.keeps.of_eq firstEnded).later
      have behind := ((rest found).keeps.of_eq ended).later
      have healthyFirst := first.same s found middle firstEnded fun request started passed =>
        worked request started (passed.trans_le behind)
      rw [bind_of_returned healthyFirst]
      exact (rest found).same middle value after ended fun request started =>
        worked request (before.trans started)
    · rw [bind_of_failed firstEnded] at ended
      exact nomatch ended
    · rw [bind_of_aborted firstEnded] at ended
      exact nomatch ended

theorem Undisturbed.ite {condition : Prop} [Decidable condition]
    {prog healthy other otherHealthy : Handler EmpWrapper α}
    (holds : Undisturbed transport prog healthy) (fails : Undisturbed transport other otherHealthy) :
    Undisturbed transport (if condition then prog else other)
      (if condition then healthy else otherHealthy) := by
  split_ifs
  · exact holds
  · exact fails

theorem undisturbed_processRead (nbyte : ℕ) :
    Undisturbed transport (processRead transport nbyte) (processRead (healed transport) nbyte) := by
  refine ⟨keeps_processRead nbyte, fun s value after ended worked => ?_⟩
  by_cases nothing : nbyte = 0
  · rw [processRead, if_pos nothing] at ended ⊢
    exact ended
  · have asked : ∀ transport : Transport, processRead transport nbyte s =
        (if transport.works s.clock then do
          let wrapper ← Handler.get
          Handler.require (nbyte ≤ wrapper.inbox.length)
          Handler.modify fun wrapper => { wrapper with inbox := wrapper.inbox.drop nbyte }
          pure (some (wrapper.inbox.take nbyte))
        else do
          markIoFailed
          pure none : Handler EmpWrapper (Option Bytes)) { s with clock := s.clock + 1 } := by
      intro transport
      rw [processRead, if_neg nothing]
      rfl
    rw [asked] at ended ⊢
    cases works : transport.works s.clock with
    | true =>
        rw [works] at ended
        exact ended
    | false =>
        rw [works] at ended
        cases ended
        have request := worked s.clock le_rfl (Nat.lt_succ_self _)
        rw [works] at request
        cases request

theorem undisturbed_recvDataInternal {config : ChannelConfig}
    (headers : config.prependHeader = true) (nbyte : ℕ) :
    Undisturbed transport (recvDataInternal transport config nbyte)
      (recvDataInternal (healed transport) config nbyte) := by
  have sized : ∀ toRead, Undisturbed transport (nextSize transport config toRead)
      (nextSize (healed transport) config toRead) := by
    intro toRead
    refine .ite (.bind (undisturbed_processRead headerSize) fun header => .of_keeps ?_)
      (.of_keeps (keeps_pure _))
    cases header with
    | none => exact keeps_pure none
    | some bytes => exact keeps_bind (keeps_track _) fun _ => keeps_pure _
  have refilled : ∀ start size, Undisturbed transport (refill transport start size)
      (refill (healed transport) start size) := by
    intro start size
    refine .bind (.of_keeps (keeps_modify_same (fun _ => rfl) fun _ => rfl)) fun _ => ?_
    refine .bind (undisturbed_processRead size) fun _ => .of_keeps ?_
    exact keeps_modify_same (fun _ => rfl) fun _ => rfl
  have drained : ∀ start, Undisturbed transport (drainPending transport config start)
      (drainPending (healed transport) config start) := by
    intro start
    refine .bind (.of_keeps keeps_get) fun wrapper => ?_
    rw [if_pos (Or.inl headers), if_pos (Or.inl headers)]
    exact .of_keeps (keeps_pure ())
  refine .bind (.of_keeps keeps_get) fun wrapper => .ite (.of_keeps (keeps_pure _)) (.ite ?_ ?_)
  · refine .bind (undisturbed_processRead nbyte) fun read => .of_keeps ?_
    exact keeps_bind (keeps_track _) fun _ => keeps_pure _
  · refine .ite (.of_keeps (keeps_readBytes nbyte)) ?_
    refine .bind (.of_keeps (keeps_readBytes _)) fun first => ?_
    refine .bind (sized _) fun size => ?_
    cases size with
    | none => exact .of_keeps (keeps_pure _)
    | some size =>
        refine .ite (.of_keeps (keeps_bind keeps_markIoFailed fun _ => keeps_pure _)) ?_
        refine .bind (refilled 0 size) fun _ => .bind (drained size) fun _ => .of_keeps ?_
        exact keeps_bind (keeps_readBytes _) fun _ => keeps_pure _

end Exchange

section Reports

variable {transport : Transport} {online : List Bool → Online} {kind : Ag2pcKind} {party : Party}
  {inSecret output out : Bytes} {before after : EmpWrapper}

theorem execSmallInternal_of_failed (failed : before.ioFailed = true) :
    execSmallInternal transport online kind party inSecret output before =
      (.returned (false, output), before) := by
  change (if before.ioFailed = true then pure (false, output) else _ :
    Handler EmpWrapper (Bool × Bytes)) before = _
  rw [if_pos failed]
  rfl

theorem execSmallInternal_of_clear (clear : before.ioFailed = false) :
    execSmallInternal transport online kind party inSecret output before =
      ((online (party.asBool inSecret)).run transport >>=
        concludeOnline transport kind party output.length) before := by
  change (if before.ioFailed = true then _ else _ : Handler EmpWrapper (Bool × Bytes)) before = _
  rw [if_neg (by simp [clear])]

theorem concludeOnline_eq_true {ended : Option (List Bool)} {outputSize : ℕ} {ready : EmpWrapper} :
    concludeOnline transport kind party outputSize ended ready = (.returned (true, out), after) ↔
      ready.ioFailed = false ∧ ∃ tempOut, ended = some tempOut ∧
        if kind.iters = none then out = toBytes outputSize tempOut ∧ after = ready
        else forwardResult transport party outputSize tempOut ready = (.returned out, after) := by
  cases ended with
  | none =>
      have marked : concludeOnline transport kind party outputSize none ready =
        (.returned (false, List.replicate outputSize 0), { ready with ioFailed := true }) := rfl
      simp [marked]
  | some tempOut =>
      simp only [concludeOnline, Option.some.injEq, exists_eq_left']
      change (if ready.ioFailed = true then _ else _ :
        Handler EmpWrapper (Bool × Bytes)) ready = _ ↔ _
      cases flag : ready.ioFailed with
      | true => simp [pure]
      | false =>
          simp only [Bool.false_eq_true, if_false, true_and]
          cases kind.iters with
          | none => simp [pure, eq_comm]
          | some iters =>
              simp only [reduceCtorEq, if_false]
              rcases forwarded : forwardResult transport party outputSize tempOut ready with
                ⟨_ | _ | _, sent⟩
              · rw [bind_of_returned forwarded]
                simp [pure]
              · simp [bind_of_failed forwarded]
              · simp [bind_of_aborted forwarded]

theorem execSmallInternal_eq_true :
    execSmallInternal transport online kind party inSecret output before =
        (.returned (true, out), after) ↔
      before.ioFailed = false ∧ ∃ tempOut ready,
        (online (party.asBool inSecret)).run transport before =
          (.returned (some tempOut), ready) ∧ ready.ioFailed = false ∧
        if kind.iters = none then out = toBytes output.length tempOut ∧ after = ready
        else forwardResult transport party output.length tempOut ready =
          (.returned out, after) := by
  cases flag : before.ioFailed with
  | true => simp [execSmallInternal_of_failed flag]
  | false =>
      rw [execSmallInternal_of_clear flag]
      rcases ended : (online (party.asBool inSecret)).run transport before with
        ⟨result | _ | _, ready⟩
      · rw [bind_of_returned ended, concludeOnline_eq_true]
        simp only [Prod.mk.injEq, Outcome.returned.injEq, true_and]
        constructor
        · rintro ⟨clear, tempOut, rfl, reported⟩
          exact ⟨tempOut, ready, ⟨rfl, rfl⟩, clear, reported⟩
        · rintro ⟨tempOut, _, ⟨rfl, rfl⟩, clear, reported⟩
          exact ⟨clear, tempOut, rfl, reported⟩
      · simp [bind_of_failed ended]
      · simp [bind_of_aborted ended]

theorem ensures_execSmallInternal_false :
    Ensures (execSmallInternal transport online kind party inSecret output)
      (fun reported after => reported.1 = false → after.ioFailed = true) before := by
  apply Ensures.get_bind
  apply Ensures.ite
  · exact fun failed => Ensures.pure fun _ => failed
  · refine fun _ => Ensures.bind fun ended ready _ => ?_
    cases ended with
    | none => exact Ensures.modify_bind (Ensures.pure fun _ => rfl)
    | some tempOut =>
        apply Ensures.get_bind
        apply Ensures.ite
        · exact fun failed => Ensures.pure fun _ => failed
        · intro _
          cases kind.iters with
          | none => exact Ensures.pure nofun
          | some iters => exact Ensures.bind fun _ _ _ => Ensures.pure nofun

/-- The model of `Circuit.Preprocessing`, in which a call of the library loses the connection or
does not, covers every evaluation over the channel. -/
theorem execSmallInternal_refines {reported : Bool}
    (ended : execSmallInternal transport online kind party inSecret output before =
      (.returned (reported, out), after)) (runTimes : ℕ) (log : List Phase) :
    ∃ fails, let abstract := Surf.execSmallInternal fails kind ⟨runTimes, before.ioFailed, log⟩
      abstract.1 = reported ∧ abstract.2.ioFailed = after.ioFailed := by
  -- the first call is the online phase, the second one the exchange
  refine ⟨fun call => if call = log.length then !reported else after.ioFailed, ?_⟩
  cases reported with
  | false =>
      have failed := ensures_execSmallInternal_false _ _ ended rfl
      cases flag : before.ioFailed <;> simp [Surf.execSmallInternal, libraryCall, failed]
  | true =>
      rcases execSmallInternal_eq_true.mp ended with
        ⟨clear, tempOut, ready, -, readyClear, reported⟩
      cases iters : kind.iters with
      | none =>
          rw [if_pos iters] at reported
          simp [Surf.execSmallInternal, libraryCall, clear, iters, reported.2, readyClear]
      | some count => simp [Surf.execSmallInternal, libraryCall, clear, iters]

theorem keeps_execSmallInternal :
    Keeps (Latched transport) (execSmallInternal transport online kind party inSecret output) := by
  refine keeps_bind keeps_get fun wrapper => keeps_ite (keeps_pure _) ?_
  refine keeps_bind (keeps_run _) fun ended => ?_
  cases ended with
  | none => exact keeps_bind keeps_markIoFailed fun _ => keeps_pure _
  | some tempOut =>
      refine keeps_bind keeps_get fun wrapper => keeps_ite (keeps_pure _) ?_
      cases kind.iters with
      | none => exact keeps_pure _
      | some iters => exact keeps_bind (keeps_forwardResult party _ tempOut) fun _ => keeps_pure _

/-- A failure that an execution does not report makes every later one over the wrapper fail. -/
theorem execSmallInternal_after_failure {reported : Bool}
    (ended : execSmallInternal transport online kind party inSecret output before =
      (.returned (reported, out), after)) (lost : ¬Worked transport before after)
    (nextOnline : List Bool → Online) (nextKind : Ag2pcKind) (nextSecret nextOutput : Bytes) :
    execSmallInternal transport nextOnline nextKind party nextSecret nextOutput after =
      (.returned (false, nextOutput), after) := by
  apply execSmallInternal_of_failed
  rw [← Bool.not_eq_false]
  intro clear
  exact lost ((keeps_execSmallInternal.of_eq ended).worked clear)

/-- The circuit on what the arrays of both parties hold for it. -/
def Party.evaluate (gates : List Bool → List Bool → List Bool) (width : ℕ)
    (own peer : List Bool) : Party → List Bool
  | .alice => gates (peer.take width) (own.drop width)
  | .bob => gates (own.take width) (peer.drop width)

def Party.peer : Party → Party
  | .alice => .bob
  | .bob => .alice

/-- What the circuit computes from the inputs of a party and of its peer. -/
def Party.circuitOutput (gates : List Bool → List Bool → List Bool) (outputSize : ℕ)
    (inSecret peerSecret : Bytes) : Party → Bytes
  | .alice => toBytes outputSize (gates (ofBytes peerSecret) (ofBytes inSecret))
  | .bob => toBytes outputSize (gates (ofBytes inSecret) (ofBytes peerSecret))

/-- ALICE has read everything up to the end of a frame, and what arrives then is what BOB writes when
it forwards these bits. -/
structure PeerForwards (outputSize : ℕ) (bits : List Bool) (ready : EmpWrapper) : Prop where
  drained : ready.readBuffer.lowerHead = 0 ∧ ready.readBuffer.upperHead = 0
  arrives : ∃ (peerTransport : Transport) (peer peerAfter : EmpWrapper) (sent : List Bytes),
    (∀ now, peerTransport.works now = true) ∧ Sending peer ⟨sent, []⟩ ∧
      forwardResult peerTransport .bob outputSize bits peer =
        (.returned (toBytes outputSize bits), peerAfter) ∧
      peerAfter.outbox = peer.outbox ++ ready.inbox

/--
What the library and the peer are relied on for, in the executions that one preprocessing is made for
and if no request of the online phase fails. The program outputs the bits that the circuit computes
from the first half of BOB's array and from the second half of ALICE's, of an amortised circuit only
to BOB, and then ALICE receives what BOB forwards.
-/
structure Contract (transport : Transport) (library : ℕ → List Bool → Online) (kind : Ag2pcKind)
    (party : Party) (inSecret : Bytes) (outputSize : ℕ) (bits : List Bool)
    (before : EmpWrapper) : Prop where
  evaluates : kind.iters = none ∨ party = .bob → ∀ execution < kind.instances, ∀ tempOut ready,
    (library execution (party.asBool inSecret)).run transport before =
        (.returned (some tempOut), ready) →
      Worked transport before ready → tempOut = bits
  forwards : party = .alice → kind.iters ≠ none → ∀ execution < kind.instances, ∀ tempOut ready,
    (library execution (party.asBool inSecret)).run transport before =
        (.returned (some tempOut), ready) →
      Worked transport before ready → PeerForwards outputSize bits ready

theorem Party.evaluate_asBool (gates : List Bool → List Bool → List Bool) (party : Party)
    {inSecret peerSecret : Bytes} (sameSize : peerSecret.length = inSecret.length)
    (outputSize : ℕ) :
    toBytes outputSize (party.evaluate gates (8 * inSecret.length) (party.asBool inSecret)
        (party.peer.asBool peerSecret)) =
      party.circuitOutput gates outputSize inSecret peerSecret := by
  cases party with
  | alice => simp [Party.evaluate, Party.circuitOutput, Party.peer, Party.asBool, ← sameSize]
  | bob => simp [Party.evaluate, Party.circuitOutput, Party.peer, Party.asBool, ← sameSize]

theorem ensures_forwardResult_bob {outputSize : ℕ} {tempOut : List Bool} {ready : EmpWrapper} :
    Ensures (forwardResult transport .bob outputSize tempOut)
      (fun received _ => received = toBytes outputSize tempOut) ready :=
  Ensures.bind fun _ _ _ => Ensures.bind fun _ _ _ => Ensures.pure rfl

/-- BOB writes the result as one frame. -/
theorem ensures_forwardResult_bob_frame (works : ∀ now, transport.works now = true)
    {outputSize : ℕ} {tempOut : List Bool} {peer : EmpWrapper} {sent : List Bytes}
    (nonempty : 0 < outputSize) (small : outputSize ≤ 2 ^ 30)
    (sending : Sending peer ⟨sent, []⟩) :
    Ensures (forwardResult transport .bob outputSize tempOut)
      (fun _ after => after.outbox = peer.outbox ++ encodeFrame (toBytes outputSize tempOut))
      peer := by
  have size : (toBytes outputSize tempOut).length = outputSize := by simp [toBytes]
  have whole : Framing.accepted (toBytes outputSize tempOut) = toBytes outputSize tempOut := by
    rw [Framing.accepted, Nat.mod_eq_of_lt (by omega), List.take_length]
  have occupied : toBytes outputSize tempOut ≠ [] := by
    rw [← List.length_pos_iff, size]
    exact nonempty
  have fits : (Framing.append (toBytes outputSize tempOut) ⟨sent, []⟩).unsent.length ≤
      maxPayload := by
    simp only [Framing.append, List.nil_append, whole, size]
    exact small.trans (by decide)
  apply Ensures.bind
  refine (achieves_sendDataInternal works rfl rfl sending fits).ensures.mono ?_
  intro _ appended sendingResult
  have held : Framing.step defaultConfig.policy ⟨sent, []⟩ (.send (toBytes outputSize tempOut)) =
      ⟨sent, toBytes outputSize tempOut⟩ := by
    simp [Framing.step, Framing.append, whole, BufferPolicy.shouldSend, defaultConfig,
      BufferPolicy.default]
  rw [held] at sendingResult
  apply Ensures.bind
  refine (achieves_flush works rfl rfl sendingResult).ensures.mono ?_
  intro _ flushed sendingNothing
  apply Ensures.pure
  rw [sendingNothing.written, sending.written, Framing.flush, if_neg occupied]
  simp

/-- ALICE takes the result out of the frame if none of its requests fails. -/
theorem PeerForwards.received_eq {outputSize : ℕ} {bits : List Bool} {ready after : EmpWrapper}
    {received : Bytes} (forwards : PeerForwards outputSize bits ready)
    (clear : ready.ioFailed = false) (nonempty : 0 < outputSize) (small : outputSize ≤ 2 ^ 30)
    (ended : recvDataInternal transport defaultConfig outputSize ready = (.returned received, after))
    (worked : Worked transport ready after) : received = toBytes outputSize bits := by
  rcases forwards.arrives with ⟨peerTransport, peer, peerAfter, sent, works, sending, forwarded, wire⟩
  have written := ensures_forwardResult_bob_frame works nonempty small sending _ _ forwarded
  have arrived : ready.inbox = [toBytes outputSize bits].flatMap encodeFrame := by
    rw [List.flatMap_singleton]
    exact List.append_cancel_left (wire.symm.trans written)
  have receiving : Receiving ready ⟨[], [toBytes outputSize bits]⟩ := by
    refine ⟨clear, rfl, ?_, fun _ => forwards.drained.1, arrived⟩
    exact forwards.drained.1.trans forwards.drained.2.symm
  have size : (toBytes outputSize bits).length = outputSize := by simp [toBytes]
  have read : Segments.Reader.read (2 ^ 30) outputSize ⟨[], [toBytes outputSize bits]⟩ =
      some (toBytes outputSize bits, ⟨[], []⟩) := by
    have fits : outputSize - ([] : Bytes).length ≤ (toBytes outputSize bits).length ∧
        (toBytes outputSize bits).length ≤ 2 ^ 30 := ⟨size.ge, size.trans_le small⟩
    rw [Segments.Reader.read_of_lt nonempty, if_pos fits]
    simp [List.take_of_length_le size.le, List.drop_of_length_le size.le]
  have healthy := (undisturbed_recvDataInternal rfl outputSize).same ready received after ended worked
  have works : ∀ now, (healed transport).works now = true := fun _ => rfl
  exact ((achieves_recvDataInternal works rfl rfl receiving read).ensures _ _ healthy).1

/--
In an execution that the preprocessing was made for, `exec_small_internal` reports success only of
an undisturbed evaluation, with the output of the circuit, exactly if the circuit is not amortised or
the requests succeed with which BOB writes the result and ALICE reads it.
-/
theorem execSmallInternal_reports_iff {library : ℕ → List Bool → Online}
    {gates : List Bool → List Bool → List Bool} {peerSecret : Bytes} {execution : ℕ}
    (contract : Contract transport library kind party inSecret output.length
      (party.evaluate gates (8 * inSecret.length) (party.asBool inSecret)
        (party.peer.asBool peerSecret)) before)
    (covered : execution < kind.instances) (sameSize : peerSecret.length = inSecret.length)
    (nonempty : 0 < output.length) (small : output.length ≤ 2 ^ 30) :
    (∀ out after, execSmallInternal transport (library execution) kind party inSecret output before =
        (.returned (true, out), after) →
      Worked transport before after ∧
        out = party.circuitOutput gates output.length inSecret peerSecret) ↔
    (kind.iters = none ∨ ∀ tempOut ready received after, before.ioFailed = false →
      (library execution (party.asBool inSecret)).run transport before =
        (.returned (some tempOut), ready) →
      ready.ioFailed = false →
      forwardResult transport party output.length tempOut ready = (.returned received, after) →
      Worked transport ready after) := by
  rw [← party.evaluate_asBool gates sameSize]
  constructor
  · intro reports
    rcases Decidable.em (kind.iters = none) with single | amortised
    · exact .inl single
    · right
      intro tempOut ready received after clear ended readyClear forwarded
      have returned : execSmallInternal transport (library execution) kind party inSecret output
          before = (.returned (true, received), after) := by
        refine execSmallInternal_eq_true.mpr ⟨clear, tempOut, ready, ended, readyClear, ?_⟩
        rwa [if_neg amortised]
      have worked := (reports received after returned).1
      have later : before.clock ≤ ready.clock := ((keeps_run _).of_eq ended).later
      exact fun request started => worked request (later.trans started)
  · intro undisturbed out after returned
    rcases execSmallInternal_eq_true.mp returned with
      ⟨clear, tempOut, ready, ended, readyClear, reported⟩
    have evaluated : Worked transport before ready := ((keeps_run _).of_eq ended).worked readyClear
    split_ifs at reported with single
    · rcases reported with ⟨rfl, rfl⟩
      have bits := contract.evaluates (.inl single) execution covered tempOut after ended evaluated
      exact ⟨evaluated, congrArg _ bits⟩
    · have exchanged := undisturbed.resolve_left single tempOut ready out after clear ended
        readyClear reported
      refine ⟨evaluated.trans exchanged, ?_⟩
      cases party with
      | alice =>
          have forwards := contract.forwards rfl single execution covered tempOut ready ended evaluated
          exact forwards.received_eq readyClear nonempty small reported exchanged
      | bob =>
          rw [ensures_forwardResult_bob out after reported]
          exact congrArg _ (contract.evaluates (.inr rfl) execution covered tempOut ready ended
            evaluated)

/-- A library for a circuit on bytes that tells BOB the input of ALICE. -/
def openLibrary (circuit : Bytes → Bytes → Bytes) (party : Party) (asBool : List Bool) : Online :=
  match party with
  | .alice => .send (toBytes 1 (asBool.drop 8)) (.flush (.finished []))
  | .bob => .recv 1 fun peerSecret =>
      .finished (ofBytes (circuit (toBytes 1 (asBool.take 8)) peerSecret))

/-- The transport of which one request fails. -/
def failsAt (failing : ℕ) : Transport :=
  { works := fun request => request != failing, pending := 0 }

/-- The fourth request would fail, but there are only three. -/
theorem execSmallInternal_reports_received :
    let before := { new defaultConfig with inbox := encodeFrame [12] }
    let ended := execSmallInternal (failsAt 3) (openLibrary xorBytes .alice) .aesEnc .alice
      [5] [255] before
    ended.1 = .returned (true, [12]) ∧ Worked (failsAt 3) before ended.2 ∧
      Party.alice.circuitOutput (List.zipWith xor) 1 [5] [9] = [12] := by
  intro before ended
  have received : ((openLibrary xorBytes .alice (Party.alice.asBool [5])).run (failsAt 3) >>=
      fun _ => recvDataInternal (failsAt 3) defaultConfig 1) before =
        (.returned [12], ended.2) := by
    decide +kernel
  have returned : ended = (.returned (true, [12]), ended.2) := by decide +kernel
  have contract : Contract (failsAt 3) (fun _ => openLibrary xorBytes .alice) .aesEnc .alice [5]
      ([255] : Bytes).length (Party.alice.evaluate (List.zipWith xor) (8 * ([5] : Bytes).length)
        (Party.alice.asBool [5]) (Party.alice.peer.asBool [9])) before := by
    refine ⟨by simp [Ag2pcKind.iters], fun _ _ execution _ tempOut ready ran _ => ?_⟩
    obtain rfl : _ = ready := congrArg Prod.snd ran
    refine ⟨by decide +kernel, reliable, new defaultConfig, _, [], fun _ => rfl, sending_new rfl,
      Prod.ext ?_ rfl, ?_⟩
    · decide +kernel
    · decide +kernel
  have covered : 3 < Ag2pcKind.aesEnc.instances := by decide
  have reports := (execSmallInternal_reports_iff contract covered rfl (by decide) (by decide)).mpr
    (.inr ?_) [12] ended.2 returned
  · exact ⟨congrArg Prod.fst returned, reports.1, reports.2.symm⟩
  · intro tempOut ready out after _ ran _ forwarded request _ early
    rw [bind_of_returned ran] at received
    have same := forwarded.symm.trans received
    have finished : ended.2.clock = 3 := by decide +kernel
    cases same
    simp only [failsAt, bne_iff_ne]
    omega

/-- ALICE does not notice that the result was lost and takes zeros for it. -/
theorem execSmallInternal_lost_result :
    let before := { new defaultConfig with inbox := encodeFrame [12] }
    let ended := execSmallInternal (failsAt 1) (openLibrary xorBytes .alice) .aesEnc .alice
      [5] [255] before
    ended.1 = .returned (true, [0]) ∧ ¬Worked (failsAt 1) before ended.2 ∧
      Party.alice.circuitOutput (List.zipWith xor) 1 [5] [9] = [12] := by
  refine ⟨by decide +kernel, fun worked => ?_, by decide⟩
  have request := worked 1 (by decide) (by decide +kernel)
  exact absurd request (by decide)

/-- The next execution fails, without a call of the library. -/
theorem execSmallInternal_after_lost_result :
    let before := { new defaultConfig with inbox := encodeFrame [12] }
    let ended := execSmallInternal (failsAt 1) (openLibrary xorBytes .alice) .aesEnc .alice
      [5] [255] before
    execSmallInternal (failsAt 1) (openLibrary xorBytes .alice) .aesEnc .alice [6] [255] ended.2 =
      (.returned (false, [255]), ended.2) := by
  intro before ended
  have returned : ended = (.returned (true, [0]), ended.2) := by decide +kernel
  have lost : ¬Worked (failsAt 1) before ended.2 := fun worked =>
    absurd (worked 1 (by decide) (by decide +kernel)) (by decide)
  exact execSmallInternal_after_failure returned lost _ _ _ _

end Reports

end PracticalCrypto.Surf.Execution
