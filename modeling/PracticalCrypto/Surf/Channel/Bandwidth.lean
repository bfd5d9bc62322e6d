import PracticalCrypto.Surf.Channel.Transparency

/-!
# The bandwidth of a channel

A wrapper counts what it reads and writes, and the reported bandwidth is read off these counters.
Sent bytes are counted when they are given to the wrapper, the header of a frame when the frame is
flushed, and received bytes when they are taken from the connection.

There are two ways to lose bytes that have been counted. The buffer takes the size of a call as an
`unsigned`, so that it drops 2 ^ 32 bytes or a multiple. And a wrapper that has received a frame
with an impossible size is marked as failed: it still clears its buffer when it is flushed, but
writes nothing. Calls of a possible size on a connection with plausible frames are counted exactly.
`Balanced` is the invariant of such a run.
-/

namespace PracticalCrypto.Surf.EmpWrapper

open Handler

section Calls

/-- What a wrapper may be asked for. -/
inductive IoCall where
  | send (data : Bytes)
  | flush
  | recv (nbyte : ℕ)

variable (transport : Transport) (config : ChannelConfig)

def performIo : IoCall → Handler EmpWrapper Unit
  | .send data => sendDataInternal transport config data
  | .flush => EmpWrapper.flush transport config
  | .recv nbyte => do
      let _ ← recvDataInternal transport config nbyte
      pure ()

def runIo (calls : List IoCall) : Handler EmpWrapper Unit :=
  Handler.forEach (performIo transport config) calls

/-- The size of the call is possible: a buffer takes the size of what is sent as an `unsigned`, and
what is received without headers is not taken for an impossible frame. -/
def IoCall.Fits : IoCall → Prop
  | .send data => config.policy.canBuffer = true → data.length < 2 ^ 32
  | .flush => True
  | .recv nbyte => config.policy.canBuffer = true → config.prependHeader = false → nbyte ≤ 2 ^ 30

/-- The size that the header of a frame announces for the bytes behind it. -/
def announcedSize (bytes : Bytes) : ℕ := BigEndian.toNat (bytes.take headerSize) - headerSize

/-- The bytes are frames whose headers announce at most 2 ^ 30 bytes, and perhaps a part of one. -/
inductive PlausibleFrames : Bytes → Prop
  | short {bytes : Bytes} (length : bytes.length < headerSize) : PlausibleFrames bytes
  | frame {bytes : Bytes} (small : announcedSize bytes ≤ 2 ^ 30)
      (later : PlausibleFrames (bytes.drop (headerSize + announcedSize bytes))) :
      PlausibleFrames bytes

/-- A new wrapper, with the bytes that are going to arrive. -/
def connected (arriving : Bytes) : EmpWrapper := { new config with inbox := arriving }

/-- The space for a header in front of the buffer. -/
def reserved : ℕ := if config.prependHeader then headerSize else 0

/-- The bytes in the buffer that have been sent and not flushed. -/
def bufferedPayload (w : EmpWrapper) : ℕ := w.writeBuffer.size - reserved config

/-- The counters are what went over the connection, with what is still in the buffer. -/
structure ExactlyCounted (arriving : Bytes) (w : EmpWrapper) : Prop where
  written : w.counter.writeCounter = w.outbox.length + bufferedPayload config w
  read : w.counter.readCounter + w.inbox.length = arriving.length

/-- The counters are exact up to `owed` bytes that have been sent and are counted next. The
connection is at the border of a frame, and nothing has marked it as failed. -/
structure Balanced (arriving : Bytes) (owed : ℕ) (w : EmpWrapper) : Prop where
  room : reserved config ≤ w.writeBuffer.size
  direct : config.policy.canBuffer = false → w.writeBuffer.size = reserved config
  healthy : w.ioFailed = false
  written : w.counter.writeCounter + owed = w.outbox.length + bufferedPayload config w
  read : w.counter.readCounter + w.inbox.length = arriving.length
  frames : config.policy.canBuffer = true → config.prependHeader = true → PlausibleFrames w.inbox

end Calls

variable {transport : Transport} {config : ChannelConfig} {arriving : Bytes} {owed : ℕ}
  {w : EmpWrapper}

theorem reserved_of_headers (headers : config.prependHeader = true) :
    reserved config = headerSize := by
  rw [reserved, if_pos headers]

theorem reserved_of_bare (bare : config.prependHeader = false) : reserved config = 0 := by
  rw [reserved, if_neg (by simp [bare])]

theorem Balanced.exactlyCounted (balanced : Balanced config arriving 0 w) :
    ExactlyCounted config arriving w := ⟨balanced.written, balanced.read⟩

theorem Balanced.size_eq (balanced : Balanced config arriving owed w) :
    reserved config + bufferedPayload config w = w.writeBuffer.size :=
  Nat.add_sub_cancel' balanced.room

section Send

/-- Nothing is flushed exactly if nothing is buffered. -/
theorem Balanced.idle_iff (balanced : Balanced config arriving owed w) :
    (config.policy.canBuffer = false ∨ w.writeBuffer.size = 0 ∨
      (config.prependHeader = true ∧ w.writeBuffer.size = headerSize)) ↔
      w.writeBuffer.size = reserved config := by
  have room := balanced.room
  constructor
  · rintro (unbuffered | nothing | ⟨headers, onlyHeader⟩)
    · exact balanced.direct unbuffered
    · omega
    · rw [onlyHeader, reserved_of_headers headers]
  · intro onlyReserved
    cases headers : config.prependHeader with
    | false => exact Or.inr (Or.inl (onlyReserved.trans (reserved_of_bare headers)))
    | true => exact Or.inr (Or.inr ⟨rfl, onlyReserved.trans (reserved_of_headers headers)⟩)

theorem balanced_bufferData (buffers : config.policy.canBuffer = true) {data : Bytes}
    (fits : data.length < 2 ^ 32) (balanced : Balanced config arriving owed w) :
    Ensures (bufferData data) (fun _ => Balanced config arriving (owed + data.length)) w := by
  have grown :
      SslBuffer.size
          { w.writeBuffer with
            buffer := w.writeBuffer.buffer ++ data.take (data.length % 2 ^ 32) } =
        w.writeBuffer.size + data.length := by
    rw [Nat.mod_eq_of_lt fits, List.take_length]
    exact List.length_append
  have room := balanced.room
  have written := balanced.written
  apply Ensures.get_bind
  refine Ensures.ite (fun _ => Ensures.modify ?_) fun _ => Ensures.abort
  refine ⟨?_, ?_, balanced.healthy, ?_, balanced.read, balanced.frames⟩
  · rw [grown]
    omega
  · intro unbuffered
    rw [buffers] at unbuffered
    cases unbuffered
  · simp only [bufferedPayload, grown] at written ⊢
    omega

theorem balanced_track (size : ℕ) (balanced : Balanced config arriving (owed + size) w) :
    Ensures (track (RwCounter.trackWrite size)) (fun _ => Balanced config arriving owed) w := by
  have written := balanced.written
  refine Ensures.modify ⟨balanced.room, balanced.direct, balanced.healthy, ?_, balanced.read,
    balanced.frames⟩
  change w.counter.writeCounter + size + owed = w.outbox.length + bufferedPayload config w
  omega

section Working

variable (works : ∀ now, transport.works now = true)

include works

/-- The end of a flush: the buffer is written and cleared. -/
theorem balanced_writeOut (healthy : w.ioFailed = false)
    (written : w.counter.writeCounter + owed = w.outbox.length + w.writeBuffer.size)
    (read : w.counter.readCounter + w.inbox.length = arriving.length)
    (frames : config.prependHeader = true → PlausibleFrames w.inbox) :
    Ensures
      (do
        let wrapper ← Handler.get
        if wrapper.ioFailed then pure () else processWrite transport wrapper.writeBuffer.buffer
        track RwCounter.trackRound
        Handler.modify fun wrapper =>
          { wrapper with
            writeBuffer :=
              if config.prependHeader then wrapper.writeBuffer.resize headerSize
              else SslBuffer.empty })
      (fun _ => Balanced config arriving owed) w := by
  have cleared (buffer : SslBuffer) :
      (if config.prependHeader then buffer.resize headerSize else SslBuffer.empty).size =
        reserved config := by
    cases headers : config.prependHeader with
    | false => simp [SslBuffer.size, SslBuffer.empty, reserved_of_bare headers]
    | true => simp [SslBuffer.size_resize, reserved_of_headers headers]
  apply Ensures.get_bind
  rw [if_neg (by simp [healthy])]
  apply Ensures.bind
  refine (achieves_processWrite works _).ensures.mono ?_
  rintro _ _ ⟨clock, rfl⟩
  apply Ensures.modify_bind
  apply Ensures.modify
  refine ⟨(cleared _).ge, fun _ => cleared _, healthy, ?_, read, fun _ => frames⟩
  simp only [bufferedPayload, cleared, Nat.sub_self, List.length_append]
  exact written

theorem balanced_flush (balanced : Balanced config arriving owed w) :
    Ensures (EmpWrapper.flush transport config) (fun _ => Balanced config arriving owed) w := by
  have size := balanced.size_eq
  have written := balanced.written
  apply Ensures.get_bind
  -- the three conditions of the source for doing nothing are one condition on the payload
  by_cases idle : w.writeBuffer.size = reserved config
  · rw [if_pos (balanced.idle_iff.mpr idle)]
    exact Ensures.pure balanced
  · have occupied := mt balanced.idle_iff.mp idle
    have buffers : config.policy.canBuffer = true := by
      cases canBuffer : config.policy.canBuffer with
      | false => exact absurd (Or.inl canBuffer) occupied
      | true => rfl
    rw [if_neg occupied]
    by_cases headers : config.prependHeader = true
    · rw [if_pos headers]
      rw [reserved_of_headers headers] at size
      have fits : (BigEndian.ofNat headerSize w.writeBuffer.size).length ≤ w.writeBuffer.size := by
        rw [BigEndian.length_ofNat, ← size]
        exact Nat.le_add_right _ _
      have filled := w.writeBuffer.size_fill fits
      apply Ensures.bind
      apply Ensures.modify_bind
      apply Ensures.modify
      have counted : w.counter.writeCounter + headerSize + owed = w.outbox.length +
          (w.writeBuffer.fill 0 (BigEndian.ofNat headerSize w.writeBuffer.size)).size := by
        rw [filled]
        omega
      exact balanced_writeOut works balanced.healthy counted balanced.read (balanced.frames buffers)
    · have bare : config.prependHeader = false := by simpa using headers
      rw [if_neg headers]
      rw [reserved_of_bare bare] at size
      have counted : w.counter.writeCounter + owed = w.outbox.length + w.writeBuffer.size := by
        omega
      exact balanced_writeOut works balanced.healthy counted balanced.read (balanced.frames buffers)

theorem balanced_sendAtOnce (data : Bytes)
    (balanced : Balanced config arriving owed w) :
    Ensures (sendAtOnce transport data)
      (fun _ => Balanced config arriving (owed + data.length)) w := by
  have written := balanced.written
  apply Ensures.get_bind
  rw [if_neg (by simp [balanced.healthy])]
  apply Ensures.bind
  refine (achieves_processWrite works data).ensures.mono ?_
  rintro _ _ ⟨clock, rfl⟩
  refine Ensures.modify ⟨balanced.room, balanced.direct, balanced.healthy, ?_, balanced.read,
    balanced.frames⟩
  simp only [List.length_append]
  change w.counter.writeCounter + _ = _ + bufferedPayload config w
  omega

theorem balanced_sendDataInternal {data : Bytes} (fits : IoCall.Fits config (.send data))
    (balanced : Balanced config arriving 0 w) :
    Ensures (sendDataInternal transport config data) (fun _ => Balanced config arriving 0) w := by
  unfold sendDataInternal
  cases buffers : config.policy.canBuffer with
  | false =>
      apply Ensures.bind
      refine (balanced_sendAtOnce works data balanced).mono ?_
      exact fun _ _ sent => balanced_track data.length sent
  | true =>
      apply Ensures.bind
      refine (balanced_bufferData buffers (fits buffers) balanced).mono ?_
      intro _ appended owes
      apply Ensures.bind
      apply Ensures.get_bind
      refine Ensures.ite (fun _ => ?_) fun _ => Ensures.pure (balanced_track data.length owes)
      exact (balanced_flush works owes).mono fun _ _ flushed => balanced_track data.length flushed

end Working

end Send

section Receive

/-- Receiving changes only the connection, the read buffer and the read counter. -/
theorem Balanced.receive {after : EmpWrapper} (balanced : Balanced config arriving owed w)
    (writeBuffer : after.writeBuffer = w.writeBuffer) (outbox : after.outbox = w.outbox)
    (writeCounter : after.counter.writeCounter = w.counter.writeCounter)
    (healthy : after.ioFailed = false)
    (read : after.counter.readCounter + after.inbox.length = arriving.length)
    (frames : config.policy.canBuffer = true → config.prependHeader = true →
      PlausibleFrames after.inbox) : Balanced config arriving owed after where
  room := writeBuffer ▸ balanced.room
  direct unbuffered := writeBuffer ▸ balanced.direct unbuffered
  healthy := healthy
  written := by
    rw [writeCounter, outbox, bufferedPayload, writeBuffer]
    exact balanced.written
  read := read
  frames := frames

theorem balanced_readBytes (nbyte : ℕ) (balanced : Balanced config arriving owed w) :
    Ensures (readBytes nbyte) (fun _ => Balanced config arriving owed) w := by
  apply Ensures.get_bind
  refine Ensures.ite (fun _ => Ensures.modify_bind (Ensures.pure ?_)) fun _ => Ensures.abort
  exact balanced.receive rfl rfl rfl balanced.healthy balanced.read balanced.frames

section Working

variable (works : ∀ now, transport.works now = true)

include works

theorem ensures_processRead (nbyte : ℕ) :
    Ensures (processRead transport nbyte)
      (fun read after => nbyte ≤ w.inbox.length ∧ read = some (w.inbox.take nbyte) ∧
        ∃ clock, after = { w with inbox := w.inbox.drop nbyte, clock }) w := by
  rcases Nat.lt_or_ge w.inbox.length nbyte with short | enough
  · exact ensures_processRead_short works short
  · have arrived : w.inbox = w.inbox.take nbyte ++ w.inbox.drop nbyte :=
      (List.take_append_drop nbyte w.inbox).symm
    have length : (w.inbox.take nbyte).length = nbyte := by simpa using enough
    have achieved := achieves_processRead works arrived
    rw [length] at achieved
    exact achieved.ensures.mono fun _ _ taken => ⟨enough, taken⟩

/-- Bytes that are read into the buffer are counted. -/
theorem ensures_refill (start nbyte : ℕ) :
    Ensures (refill transport start nbyte)
      (fun _ after => nbyte ≤ w.inbox.length ∧ ∃ readBuffer clock, after =
        { w with
          inbox := w.inbox.drop nbyte
          counter := w.counter.trackRead nbyte
          readBuffer, clock }) w := by
  apply Ensures.modify_bind
  apply Ensures.bind
  refine (ensures_processRead works nbyte).mono ?_
  rintro _ _ ⟨enough, rfl, clock, rfl⟩
  exact Ensures.modify ⟨enough, _, clock, rfl⟩

theorem balanced_refill (start nbyte : ℕ) (balanced : Balanced config arriving owed w)
    (frames : config.policy.canBuffer = true → config.prependHeader = true →
      PlausibleFrames (w.inbox.drop nbyte)) :
    Ensures (refill transport start nbyte) (fun _ => Balanced config arriving owed) w := by
  refine (ensures_refill works start nbyte).mono ?_
  rintro _ _ ⟨enough, readBuffer, clock, rfl⟩
  refine balanced.receive rfl rfl rfl balanced.healthy ?_ frames
  have read := balanced.read
  simp only [RwCounter.trackRead, List.length_drop]
  omega

theorem balanced_drainPending (start : ℕ) (balanced : Balanced config arriving owed w) :
    Ensures (drainPending transport config start) (fun _ => Balanced config arriving owed) w := by
  apply Ensures.get_bind
  refine Ensures.ite (fun _ => Ensures.pure balanced) fun bare => ?_
  apply Ensures.bind
  refine achieves_tick.ensures.mono ?_
  rintro now _ ⟨rfl, rfl⟩
  have asked : Balanced config arriving owed { w with clock := w.clock + 1 } :=
    balanced.receive rfl rfl rfl balanced.healthy balanced.read balanced.frames
  refine Ensures.ite (fun _ => Ensures.pure asked) fun _ => balanced_refill works _ _ asked ?_
  exact fun _ headers => absurd (Or.inl headers) bare

/-- Without headers, as much is read as is still needed. -/
theorem balanced_readSize {toRead : ℕ} (balanced : Balanced config arriving owed w)
    (small : toRead ≤ 2 ^ 30) (bare : config.prependHeader = false) (first : Bytes) :
    Ensures (readMore transport config first toRead) (fun _ => Balanced config arriving owed) w := by
  unfold readMore nextSize
  rw [if_neg (by simp [bare])]
  apply Ensures.bind
  apply Ensures.pure
  refine Ensures.ite (fun large => absurd small (by omega)) fun _ => ?_
  apply Ensures.bind
  refine (balanced_refill works 0 toRead balanced fun _ headers => ?_).mono fun _ _ filled => ?_
  · rw [bare] at headers
    cases headers
  apply Ensures.bind
  refine (balanced_drainPending works toRead filled).mono fun _ _ drained => ?_
  apply Ensures.bind
  exact (balanced_readBytes toRead drained).mono fun _ _ taken => Ensures.pure taken

/-- With headers, the next frame is read. Its size is plausible, and so are the frames behind it. -/
theorem balanced_readFrame {toRead : ℕ} (balanced : Balanced config arriving owed w)
    (buffers : config.policy.canBuffer = true) (headers : config.prependHeader = true)
    (first : Bytes) :
    Ensures (readMore transport config first toRead) (fun _ => Balanced config arriving owed) w := by
  unfold readMore nextSize
  rw [if_pos headers]
  apply Ensures.bind
  apply Ensures.bind
  refine (ensures_processRead works headerSize).mono ?_
  rintro _ _ ⟨enough, rfl, clock, rfl⟩
  apply Ensures.modify_bind
  apply Ensures.pure
  cases balanced.frames buffers headers with
  | short length => omega
  | frame small later =>
      refine Ensures.ite (fun large => absurd small (not_le.mpr large)) fun _ => ?_
      apply Ensures.bind
      refine (ensures_refill works 0 _).mono ?_
      rintro _ filled ⟨whole, readBuffer, refillClock, isFilled⟩
      have ready : Balanced config arriving owed filled := by
        rw [isFilled]
        refine balanced.receive rfl rfl rfl balanced.healthy ?_ fun _ _ => ?_
        · have read := balanced.read
          simp only [RwCounter.trackRead, List.length_drop] at whole ⊢
          omega
        · rw [List.drop_drop]
          exact later
      apply Ensures.bind
      refine (balanced_drainPending works _ ready).mono fun _ _ drained => ?_
      apply Ensures.bind
      exact (balanced_readBytes toRead drained).mono fun _ _ taken => Ensures.pure taken

theorem balanced_recvDataInternal {nbyte : ℕ} (fits : IoCall.Fits config (.recv nbyte))
    (balanced : Balanced config arriving owed w) :
    Ensures (recvDataInternal transport config nbyte) (fun _ => Balanced config arriving owed) w := by
  have read := balanced.read
  apply Ensures.get_bind
  rw [if_neg (by simp [balanced.healthy])]
  cases buffers : config.policy.canBuffer with
  | false =>
      rw [if_pos rfl]
      apply Ensures.bind
      refine (ensures_processRead works nbyte).mono ?_
      rintro _ _ ⟨enough, rfl, clock, rfl⟩
      apply Ensures.modify_bind
      apply Ensures.pure
      refine balanced.receive rfl rfl rfl balanced.healthy ?_ ?_
      · simp only [RwCounter.trackRead, List.length_drop]
        omega
      · intro buffered
        rw [buffers] at buffered
        cases buffered
  | true =>
      rw [if_neg (by decide)]
      refine Ensures.ite (fun _ => balanced_readBytes nbyte balanced) fun _ => ?_
      apply Ensures.bind
      refine (balanced_readBytes _ balanced).mono fun first _ emptied => ?_
      cases headers : config.prependHeader with
      | true => exact balanced_readFrame works emptied buffers headers first
      | false =>
          have small := fits buffers headers
          exact balanced_readSize works emptied (by omega) headers first

end Working

end Receive

section Runs

theorem balanced_connected (frames : config.policy.canBuffer = true →
    config.prependHeader = true → PlausibleFrames arriving) :
    Balanced config arriving 0 (connected config arriving) where
  room := (SslBuffer.size_resize _ _).ge
  direct _ := SslBuffer.size_resize _ _
  healthy := rfl
  written := by
    have nothing : bufferedPayload config (connected config arriving) = 0 :=
      Nat.sub_eq_zero_of_le (SslBuffer.size_resize _ _).le
    rw [nothing]
    rfl
  read := Nat.zero_add _
  frames := frames

variable (works : ∀ now, transport.works now = true)

include works

/-- One call. -/
theorem balanced_performIo {call : IoCall} (fits : call.Fits config)
    (balanced : Balanced config arriving 0 w) :
    Ensures (performIo transport config call) (fun _ => Balanced config arriving 0) w := by
  cases call with
  | send data => exact balanced_sendDataInternal works fits balanced
  | flush => exact balanced_flush works balanced
  | recv nbyte =>
      apply Ensures.bind
      exact (balanced_recvDataInternal works fits balanced).mono fun _ _ read => Ensures.pure read

/-- Every call of a run. -/
theorem balanced_runIo {calls : List IoCall} (fits : ∀ call ∈ calls, call.Fits config)
    (balanced : Balanced config arriving 0 w) :
    Ensures (runIo transport config calls) (fun _ => Balanced config arriving 0) w := by
  induction calls generalizing w with
  | nil => exact Ensures.pure balanced
  | cons call later ih =>
      rcases List.forall_mem_cons.mp fits with ⟨first, rest⟩
      apply Ensures.bind
      exact (balanced_performIo works first balanced).mono fun _ _ => ih rest

/-- On a transport that works, calls of a possible size are counted exactly if no frame that arrives
announces more than 2 ^ 30 bytes. -/
theorem bandwidth_exact {calls : List IoCall} (fits : ∀ call ∈ calls, call.Fits config)
    (frames : config.policy.canBuffer = true → config.prependHeader = true →
      PlausibleFrames arriving) {after : EmpWrapper}
    (ran : runIo transport config calls (connected config arriving) = (.returned (), after)) :
    ExactlyCounted config arriving after :=
  (balanced_runIo works fits (balanced_connected frames) () after ran).exactlyCounted

end Runs

/-- Two frames arrive; a frame is sent in between, and a byte is still in the buffer at the end. -/
theorem bandwidth_exact_frames :
    ExactlyCounted defaultConfig [0, 0, 0, 0, 0, 0, 0, 9, 5, 0, 0, 0, 0, 0, 0, 0, 10, 6, 7]
      (runIo reliable defaultConfig [.recv 1, .send [1, 2], .flush, .recv 1, .send [3]]
        (connected defaultConfig [0, 0, 0, 0, 0, 0, 0, 9, 5, 0, 0, 0, 0, 0, 0, 0, 10, 6, 7])).2 := by
  have works : ∀ now, reliable.works now = true := fun _ => rfl
  have ran : (runIo reliable defaultConfig [.recv 1, .send [1, 2], .flush, .recv 1, .send [3]]
      (connected defaultConfig [0, 0, 0, 0, 0, 0, 0, 9, 5, 0, 0, 0, 0, 0, 0, 0, 10, 6, 7])).1 =
        .returned () := by
    decide +kernel
  refine bandwidth_exact works ?_ ?_ (Prod.ext ran rfl)
  · simp [IoCall.Fits, defaultConfig]
  · intro _ _
    exact .frame (by decide) (.frame (by decide) (.short (by decide)))

theorem runIo_send_cut {data : Bytes} (length : data.length = 2 ^ 32) :
    runIo reliable defaultConfig [.send data] (connected defaultConfig []) =
      (.returned (), { connected defaultConfig [] with
        counter := { readCounter := 0, writeCounter := 2 ^ 32, roundCounter := 0 } }) := by
  have buffered :
      bufferData data (connected defaultConfig []) =
        (.returned (), connected defaultConfig []) := by
    simp only [bufferData, length, Nat.mod_self, List.take_zero, List.append_nil]
    rfl
  have sent :
      performIo reliable defaultConfig (.send data) (connected defaultConfig []) =
        (.returned (), { connected defaultConfig [] with
          counter := { readCounter := 0, writeCounter := 2 ^ 32, roundCounter := 0 } }) := by
    rw [performIo, sendDataInternal, if_pos (by rfl), bind_of_returned buffered, length]
    rfl
  exact bind_of_returned sent

/-- A call with 4 GiB is counted in full, but the buffer stays empty. -/
theorem send_fourGiB_lost :
    ∃ after,
      runIo reliable defaultConfig [.send (List.replicate (2 ^ 32) 0)]
        (connected defaultConfig []) = (.returned (), after) ∧
      after.counter.writeCounter = 2 ^ 32 ∧ after.outbox = [] ∧
      bufferedPayload defaultConfig after = 0 ∧ ¬ExactlyCounted defaultConfig [] after := by
  refine ⟨_, runIo_send_cut List.length_replicate, rfl, rfl, rfl, fun counted => ?_⟩
  have written := counted.written
  cases written

end PracticalCrypto.Surf.EmpWrapper
