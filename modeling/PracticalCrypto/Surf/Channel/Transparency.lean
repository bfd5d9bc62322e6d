import PracticalCrypto.Library.Segments
import PracticalCrypto.Surf.Channel.EmpWrapper

/-!
# What the channel hands on

The sending wrapper cuts what it is given into frames. This file says which frames
these are and shows that the wrapper writes them, and that the receiving wrapper
reads them as `Library.Segments` describes a reader: a request opens one frame at
most. So the channel hands on what was sent if the range of no request contains two
beginnings of frames, and otherwise it does not.
-/

namespace PracticalCrypto.Surf.EmpWrapper

open Handler Segments

section Frames

/-- What a wrapper has written so far, and what it has not flushed yet. -/
structure Framing where
  frames : List Bytes
  unsent : Bytes

namespace Framing

def flush (f : Framing) : Framing :=
  if f.unsent = [] then f else { frames := f.frames ++ [f.unsent], unsent := [] }

/-- The bytes of one call; the size of a call is cut to 32 bits. -/
def accepted (data : Bytes) : Bytes := data.take (data.length % 2 ^ 32)

def append (data : Bytes) (f : Framing) : Framing :=
  { f with unsent := f.unsent ++ accepted data }

def step (policy : BufferPolicy) (f : Framing) : SendCall → Framing
  | .send data =>
      if policy.shouldSend (headerSize + (f.append data).unsent.length) then
        (f.append data).flush
      else f.append data
  | .flush => f.flush

def content (f : Framing) : Bytes := f.frames.flatten ++ f.unsent

/-- Nothing is longer than the bound. -/
structure Bounded (bound : ℕ) (f : Framing) : Prop where
  unsent : f.unsent.length ≤ bound
  frames : ∀ frame ∈ f.frames, frame.length ≤ bound

variable {policy : BufferPolicy} {bound : ℕ} {f : Framing}

theorem content_flush (f : Framing) : f.flush.content = f.content := by
  unfold flush
  split_ifs
  · rfl
  · simp [content]

theorem content_step_send (data : Bytes) :
    (f.step policy (.send data)).content = f.content ++ accepted data := by
  have appended : (f.append data).content = f.content ++ accepted data := by
    simp [append, content]
  simp only [step]
  split_ifs
  · rw [content_flush, appended]
  · exact appended

theorem bounded_flush : Bounded bound f.flush ↔ Bounded bound f := by
  unfold flush
  split_ifs with empty
  · rfl
  · constructor
    · rintro ⟨-, framesShort⟩
      have ⟨earlier, last⟩ := List.forall_mem_append.mp framesShort
      exact ⟨by simpa using last, earlier⟩
    · rintro ⟨unsentShort, framesShort⟩
      refine ⟨Nat.zero_le _, List.forall_mem_append.mpr ⟨framesShort, ?_⟩⟩
      simpa using unsentShort

theorem bounded_step_send {data : Bytes} :
    Bounded bound (f.step policy (.send data)) ↔ Bounded bound (f.append data) := by
  simp only [step]
  split_ifs
  · exact bounded_flush
  · rfl

theorem Bounded.of_append {data : Bytes} (bounded : Bounded bound (f.append data)) :
    Bounded bound f := by
  refine ⟨?_, bounded.frames⟩
  have grown := bounded.unsent
  simp only [append, List.length_append] at grown
  omega

theorem Bounded.of_step {call : SendCall} (bounded : Bounded bound (f.step policy call)) :
    Bounded bound f := by
  cases call with
  | send data => exact (bounded_step_send.mp bounded).of_append
  | flush => exact bounded_flush.mp bounded

theorem Bounded.of_foldl {calls : List SendCall}
    (bounded : Bounded bound (calls.foldl (step policy) f)) : Bounded bound f := by
  induction calls generalizing f with
  | nil => exact bounded
  | cons call later ih => exact (ih bounded).of_step

end Framing

def SendCall.sent : SendCall → Bytes
  | send data => data
  | flush => []

/-- All bytes that the calls are to send. -/
def sentBytes (calls : List SendCall) : Bytes := calls.flatMap SendCall.sent

/-- The part of them that reaches the buffer. -/
def acceptedBytes (calls : List SendCall) : Bytes :=
  calls.flatMap fun call => Framing.accepted call.sent

theorem Framing.length_accepted (data : Bytes) :
    (Framing.accepted data).length = data.length % 2 ^ 32 :=
  List.length_take_of_le (Nat.mod_le _ _)

theorem Framing.content_foldl {policy : BufferPolicy} (calls : List SendCall) (f : Framing) :
    (calls.foldl (Framing.step policy) f).content = f.content ++ acceptedBytes calls := by
  induction calls generalizing f with
  | nil => simp [acceptedBytes]
  | cons call later ih =>
      have stepped : (f.step policy call).content = f.content ++ Framing.accepted call.sent := by
        cases call with
        | send data => exact Framing.content_step_send data
        | flush => simp [Framing.step, Framing.content_flush, SendCall.sent, Framing.accepted]
      rw [List.foldl_cons, ih, stepped]
      simp [acceptedBytes]

theorem acceptedBytes_eq {calls : List SendCall} (fits : ∀ call ∈ calls, call.sent.length < 2 ^ 32) :
    acceptedBytes calls = sentBytes calls := by
  apply List.flatMap_congr
  intro call among
  rw [Framing.accepted, Nat.mod_eq_of_lt (fits call among), List.take_length]

theorem length_acceptedBytes_le (calls : List SendCall) :
    (acceptedBytes calls).length ≤ (sentBytes calls).length := by
  induction calls with
  | nil => exact Nat.le_refl _
  | cons call later ih =>
      have cut := Nat.mod_le call.sent.length (2 ^ 32)
      rw [← Framing.length_accepted] at cut
      simp only [acceptedBytes, sentBytes, List.flatMap_cons, List.length_append] at ih ⊢
      omega

theorem fits_of_length_le {calls : List SendCall}
    (all : (sentBytes calls).length ≤ (acceptedBytes calls).length) :
    ∀ call ∈ calls, call.sent.length < 2 ^ 32 := by
  induction calls with
  | nil => simp
  | cons call later ih =>
      have laterLe := length_acceptedBytes_le later
      have cut := Nat.mod_lt call.sent.length (Nat.two_pow_pos 32)
      have cutLe := Nat.mod_le call.sent.length (2 ^ 32)
      rw [← Framing.length_accepted] at cut cutLe
      simp only [acceptedBytes, sentBytes, List.flatMap_cons, List.length_append] at all laterLe ih
      exact List.forall_mem_cons.mpr ⟨by omega, ih (by omega)⟩

/-- The frames of a new wrapper. -/
def framing (policy : BufferPolicy) (calls : List SendCall) : Framing :=
  calls.foldl (Framing.step policy) { frames := [], unsent := [] }

theorem content_framing (policy : BufferPolicy) (calls : List SendCall) :
    (framing policy calls).content = acceptedBytes calls :=
  Framing.content_foldl calls { frames := [], unsent := [] }

def encodeFrame (frame : Bytes) : Bytes :=
  BigEndian.ofNat headerSize (headerSize + frame.length) ++ frame

end Frames

section Transport

variable {transport : Transport} {w : EmpWrapper}

theorem achieves_tick :
    Achieves tick
      (fun now after => now = w.clock ∧ after = { w with clock := w.clock + 1 }) w :=
  ⟨_, _, rfl, rfl, rfl⟩

theorem achieves_processWrite (works : ∀ now, transport.works now = true) (bytes : Bytes) :
    Achieves (processWrite transport bytes)
      (fun _ after => ∃ clock, after = { w with outbox := w.outbox ++ bytes, clock }) w := by
  unfold processWrite
  split_ifs with empty
  · exact Achieves.pure ⟨w.clock, by simp [empty]⟩
  · apply Achieves.bind
    apply achieves_tick.mono
    rintro now _ ⟨rfl, rfl⟩
    rw [if_pos (works _)]
    exact Achieves.modify ⟨_, rfl⟩

theorem achieves_processRead (works : ∀ now, transport.works now = true) {bytes later : Bytes}
    (arrived : w.inbox = bytes ++ later) :
    Achieves (processRead transport bytes.length)
      (fun read after => read = some bytes ∧ ∃ clock, after = { w with inbox := later, clock })
      w := by
  unfold processRead
  split_ifs with empty
  · have nothing := List.length_eq_zero_iff.mp empty
    have same : w.inbox = later := by simpa [nothing] using arrived
    exact Achieves.pure ⟨by rw [nothing], w.clock, by rw [← same]⟩
  · apply Achieves.bind
    apply achieves_tick.mono
    rintro now _ ⟨rfl, rfl⟩
    rw [if_pos (works _)]
    apply Achieves.get_bind
    apply Achieves.require_bind (by simp [arrived])
    apply Achieves.modify_bind
    exact Achieves.pure ⟨by simp [arrived], w.clock + 1, by simp [arrived]⟩

theorem ensures_processRead_short (works : ∀ now, transport.works now = true) {nbyte : ℕ}
    {post : Option Bytes → EmpWrapper → Prop} (short : w.inbox.length < nbyte) :
    Ensures (processRead transport nbyte) post w := by
  rw [processRead, if_neg (by omega)]
  apply Ensures.bind
  refine achieves_tick.ensures.mono ?_
  rintro now _ ⟨rfl, rfl⟩
  rw [if_pos (works _)]
  apply Ensures.get_bind
  apply Ensures.require_bind
  intro available
  exact absurd short (Nat.not_lt_of_le available)

end Transport

section Sending

variable {transport : Transport} {config : ChannelConfig} {w : EmpWrapper} {f : Framing}

structure Sending (w : EmpWrapper) (f : Framing) : Prop where
  notFailed : w.ioFailed = false
  buffered : ∃ reserved : Bytes, reserved.length = headerSize ∧
    w.writeBuffer.buffer = reserved ++ f.unsent
  written : w.outbox = f.frames.flatMap encodeFrame

theorem Sending.size_eq (sending : Sending w f) :
    w.writeBuffer.size = headerSize + f.unsent.length := by
  rcases sending.buffered with ⟨reserved, reservedLength, buffered⟩
  rw [SslBuffer.size, buffered, List.length_append, reservedLength]

theorem achieves_writeHeader (sending : Sending w f) :
    Achieves writeHeader
      (fun _ after => ∃ counter, after =
        { w with
          counter
          writeBuffer := { w.writeBuffer with buffer := encodeFrame f.unsent } }) w := by
  rcases sending.buffered with ⟨reserved, reservedLength, buffered⟩
  have filled : w.writeBuffer.fill 0 (BigEndian.ofNat headerSize w.writeBuffer.size) =
      { w.writeBuffer with buffer := encodeFrame f.unsent } := by
    simp [SslBuffer.fill, sending.size_eq, buffered, encodeFrame, BigEndian.length_ofNat,
      ← reservedLength]
  apply Achieves.modify_bind
  apply Achieves.modify
  rw [← filled]
  exact ⟨w.counter.trackWrite headerSize, rfl⟩

theorem achieves_flush (works : ∀ now, transport.works now = true)
    (buffers : config.policy.canBuffer = true) (headers : config.prependHeader = true)
    (sending : Sending w f) :
    Achieves (flush transport config) (fun _ after => Sending after f.flush) w := by
  have size := sending.size_eq
  apply Achieves.get_bind
  by_cases empty : f.unsent = []
  · have onlyHeader : w.writeBuffer.size = headerSize := by simp [size, empty]
    rw [if_pos (Or.inr (Or.inr ⟨headers, onlyHeader⟩)), Framing.flush, if_pos empty]
    exact Achieves.pure sending
  · have positive := List.length_pos_iff.mpr empty
    rw [if_neg (by simp [buffers, headers, size, headerSize, empty]), if_pos headers]
    apply Achieves.bind
    apply (achieves_writeHeader sending).mono
    rintro _ _ ⟨counter, rfl⟩
    apply Achieves.get_bind
    rw [if_neg (by simp [sending.notFailed])]
    apply Achieves.bind
    apply (achieves_processWrite works _).mono
    rintro _ _ ⟨clock, rfl⟩
    apply Achieves.modify_bind
    apply Achieves.modify
    rw [if_pos headers, Framing.flush, if_neg empty]
    refine ⟨sending.notFailed, ⟨List.replicate headerSize 0, by simp, ?_⟩, ?_⟩
    · have fits : headerSize ≤ (encodeFrame f.unsent).length := by
        simp [encodeFrame, BigEndian.length_ofNat]
      simp [SslBuffer.resize, SslBuffer.size, SslBuffer.empty, fits]
    · simp [sending.written]

/-- The largest payload of which the buffer of a wrapper can hold the frame. -/
def maxPayload : ℕ := 2 ^ 63 - 1 - headerSize

theorem bufferData_eq (sending : Sending w f) (data : Bytes) :
    bufferData data w =
      if (f.append data).unsent.length ≤ maxPayload then
        (.returned (),
          { w with
            writeBuffer :=
              { w.writeBuffer with
                buffer := w.writeBuffer.buffer ++ Framing.accepted data } })
      else (.aborted, w) := by
  have same : w.writeBuffer.size + data.length % 2 ^ 32 < 2 ^ 63 ↔
      (f.append data).unsent.length ≤ maxPayload := by
    rw [sending.size_eq, Framing.append, List.length_append, Framing.length_accepted, maxPayload]
    unfold headerSize
    omega
  change (if w.writeBuffer.size + data.length % 2 ^ 32 < 2 ^ 63 then Handler.modify _
    else Handler.abort : Handler EmpWrapper Unit) w = _
  simp only [same]
  split_ifs <;> rfl

theorem achieves_bufferData (sending : Sending w f) {data : Bytes}
    (fits : (f.append data).unsent.length ≤ maxPayload) :
    Achieves (bufferData data) (fun _ after => Sending after (f.append data)) w := by
  rcases sending.buffered with ⟨reserved, reservedLength, buffered⟩
  refine ⟨_, _, (bufferData_eq sending data).trans (if_pos fits), ?_⟩
  refine ⟨sending.notFailed, ⟨reserved, reservedLength, ?_⟩, sending.written⟩
  simp [buffered, Framing.append]

section Buffered

variable (works : ∀ now, transport.works now = true)
  (buffers : config.policy.canBuffer = true) (headers : config.prependHeader = true)

include works buffers headers

theorem achieves_flushIfFull (sending : Sending w f) :
    Achieves (flushIfFull transport config)
      (fun _ after => Sending after
        (if config.policy.shouldSend (headerSize + f.unsent.length) then f.flush else f)) w := by
  apply Achieves.get_bind
  rw [sending.size_eq]
  split_ifs
  · exact achieves_flush works buffers headers sending
  · exact Achieves.pure sending

theorem achieves_sendDataInternal {data : Bytes} (sending : Sending w f)
    (fits : (f.append data).unsent.length ≤ maxPayload) :
    Achieves (sendDataInternal transport config data)
      (fun _ after => Sending after (f.step config.policy (.send data))) w := by
  simp only [sendDataInternal, buffers, if_true]
  apply Achieves.bind
  apply (achieves_bufferData sending fits).mono
  intro _ appended sending
  apply Achieves.bind
  apply (achieves_flushIfFull works buffers headers sending).mono
  intro _ flushed sending
  exact Achieves.modify ⟨sending.notFailed, sending.buffered, sending.written⟩

theorem achieves_performSend {call : SendCall} (sending : Sending w f)
    (bounded : Framing.Bounded maxPayload (f.step config.policy call)) :
    Achieves (performSend transport config call)
      (fun _ after => Sending after (f.step config.policy call)) w := by
  cases call with
  | flush => exact achieves_flush works buffers headers sending
  | send data =>
      have fits := (Framing.bounded_step_send.mp bounded).unsent
      exact achieves_sendDataInternal works buffers headers sending fits

theorem ensures_performSend {call : SendCall} (sending : Sending w f)
    (bounded : Framing.Bounded maxPayload f) :
    Ensures (performSend transport config call)
      (fun _ after => Sending after (f.step config.policy call) ∧
        Framing.Bounded maxPayload (f.step config.policy call)) w := by
  cases call with
  | flush =>
      have flushed := achieves_flush works buffers headers sending
      exact (flushed.mono fun _ _ sent => ⟨sent, Framing.bounded_flush.mpr bounded⟩).ensures
  | send data =>
      by_cases fits : (f.append data).unsent.length ≤ maxPayload
      · have stepped : Framing.Bounded maxPayload (f.step config.policy (.send data)) :=
          Framing.bounded_step_send.mpr ⟨fits, bounded.frames⟩
        have sent := achieves_performSend works buffers headers sending stepped
        exact (sent.mono fun _ _ sending => ⟨sending, stepped⟩).ensures
      · simp only [performSend, sendDataInternal, buffers, if_true]
        apply Ensures.bind
        intro _ _ returned
        rw [bufferData_eq sending data, if_neg fits] at returned
        exact nomatch returned

theorem achieves_sendAll {calls : List SendCall} (sending : Sending w f)
    (bounded : Framing.Bounded maxPayload (calls.foldl (Framing.step config.policy) f)) :
    Achieves (sendAll transport config calls)
      (fun _ after => Sending after (calls.foldl (Framing.step config.policy) f)) w := by
  induction calls generalizing w f with
  | nil => exact Achieves.pure sending
  | cons call later ih =>
      apply Achieves.bind
      apply (achieves_performSend works buffers headers sending (Framing.Bounded.of_foldl bounded)).mono
      intro _ _ sending
      exact ih sending bounded

theorem ensures_sendAll (calls : List SendCall) (sending : Sending w f)
    (bounded : Framing.Bounded maxPayload f) :
    Ensures (sendAll transport config calls)
      (fun _ after => Sending after (calls.foldl (Framing.step config.policy) f) ∧
        Framing.Bounded maxPayload (calls.foldl (Framing.step config.policy) f)) w := by
  induction calls generalizing w f with
  | nil => exact Ensures.pure ⟨sending, bounded⟩
  | cons call later ih =>
      apply Ensures.bind
      refine (ensures_performSend works buffers headers sending bounded).mono ?_
      rintro _ _ ⟨sending, bounded⟩
      exact ih sending bounded

end Buffered

end Sending

section Receiving

variable {transport : Transport} {config : ChannelConfig} {w : EmpWrapper} {r : Reader UInt8}
  {frame : Bytes} {later : List Bytes}

/-- The wrapper holds what the reader has not handed out, and the frames have arrived. -/
structure Receiving (w : EmpWrapper) (r : Reader UInt8) : Prop where
  notFailed : w.ioFailed = false
  unread : (w.readBuffer.buffer.drop w.readBuffer.lowerHead).take r.unread.length = r.unread
  heads : w.readBuffer.lowerHead + r.unread.length = w.readBuffer.upperHead
  drained : r.unread = [] → w.readBuffer.lowerHead = 0
  arrived : w.inbox = r.segments.flatMap encodeFrame

theorem Receiving.readBytesSize_eq (receiving : Receiving w r) :
    w.readBuffer.readBytesSize = r.unread.length := by
  rw [SslBuffer.readBytesSize, ← receiving.heads, Nat.add_sub_cancel_left]

theorem Receiving.advance (receiving : Receiving w r) {nbyte : ℕ}
    (enough : nbyte ≤ r.unread.length) :
    Receiving { w with readBuffer := w.readBuffer.advance nbyte }
      { r with unread := r.unread.drop nbyte } := by
  have heads := receiving.heads
  by_cases all : nbyte = r.unread.length
  · have emptied : w.readBuffer.advance nbyte =
        { w.readBuffer with lowerHead := 0, upperHead := 0 } := by
      rw [SslBuffer.advance, if_pos (by omega)]
    have nothing : r.unread.drop nbyte = [] := by simp [all]
    rw [emptied, nothing]
    exact ⟨receiving.notFailed, by simp, rfl, fun _ => rfl, receiving.arrived⟩
  · have moved : w.readBuffer.advance nbyte =
        { w.readBuffer with lowerHead := w.readBuffer.lowerHead + nbyte } := by
      rw [SslBuffer.advance, if_neg (by omega)]
    rw [moved]
    refine ⟨receiving.notFailed, ?_, ?_, ?_, receiving.arrived⟩
    · have held := congrArg (List.drop nbyte) receiving.unread
      simpa [List.drop_take, Nat.add_comm] using held
    · simp only [List.length_drop]
      omega
    · intro nothing
      have := List.drop_eq_nil_iff.mp nothing
      omega

theorem achieves_readBytes (receiving : Receiving w r) {nbyte : ℕ}
    (enough : nbyte ≤ r.unread.length) :
    Achieves (readBytes nbyte)
      (fun bytes after => bytes = r.unread.take nbyte ∧
        Receiving after { r with unread := r.unread.drop nbyte }) w := by
  apply Achieves.get_bind
  rw [if_pos (by rw [receiving.readBytesSize_eq]; exact enough)]
  apply Achieves.modify_bind
  refine Achieves.pure ⟨?_, receiving.advance enough⟩
  rw [← receiving.unread, List.take_take, min_eq_left enough]

section Buffered

variable (works : ∀ now, transport.works now = true)
  (buffers : config.policy.canBuffer = true) (headers : config.prependHeader = true)

include works headers

theorem achieves_nextSize (toRead : ℕ) (short : frame.length ≤ maxPayload) {behind : Bytes}
    (arrived : w.inbox = encodeFrame frame ++ behind) :
    Achieves (nextSize transport config toRead)
      (fun size after => size = some frame.length ∧
        ∃ counter clock, after = { w with inbox := frame ++ behind, counter, clock }) w := by
  have header : w.inbox = BigEndian.ofNat headerSize (headerSize + frame.length) ++
      (frame ++ behind) := by
    rw [arrived, encodeFrame, List.append_assoc]
  rw [nextSize, if_pos headers]
  apply Achieves.bind
  have read := achieves_processRead works header
  rw [BigEndian.length_ofNat] at read
  apply read.mono
  rintro _ _ ⟨rfl, clock, rfl⟩
  apply Achieves.modify_bind
  refine Achieves.pure ⟨?_, _, _, rfl⟩
  rw [BigEndian.toNat_ofNat, Nat.mod_eq_of_lt, Nat.add_sub_cancel_left]
  unfold maxPayload headerSize at *
  omega

omit headers in
theorem achieves_refill (notFailed : w.ioFailed = false) (lower : w.readBuffer.lowerHead = 0)
    (upper : w.readBuffer.upperHead = 0)
    (arrived : w.inbox = frame ++ later.flatMap encodeFrame) :
    Achieves (refill transport 0 frame.length)
      (fun _ after => Receiving after ⟨frame, later⟩) w := by
  apply Achieves.modify_bind
  apply Achieves.bind
  have read := achieves_processRead
    (w := { w with readBuffer := w.readBuffer.resize (0 + frame.length) }) works arrived
  apply read.mono
  rintro _ _ ⟨rfl, clock, rfl⟩
  apply Achieves.modify
  rcases w.readBuffer.resize_drained frame.length lower upper with ⟨bytes, length, resized⟩
  simp only [Nat.zero_add, resized]
  have filled : ((SslBuffer.mk bytes 0 0).fill 0 frame).addRead frame.length =
      ⟨frame, 0, frame.length⟩ := by
    simp [SslBuffer.fill, SslBuffer.addRead, length]
  simp only [Option.getD_some, filled]
  exact ⟨notFailed, by simp, Nat.zero_add _, fun _ => rfl, rfl⟩

theorem achieves_readMore (receiving : Receiving w ⟨[], frame :: later⟩) (first : Bytes) {toRead : ℕ}
    (enough : toRead ≤ frame.length) (short : frame.length ≤ 2 ^ 30) :
    Achieves (readMore transport config first toRead)
      (fun bytes after => bytes = first ++ frame.take toRead ∧
        Receiving after ⟨frame.drop toRead, later⟩) w := by
  have small : frame.length ≤ maxPayload := short.trans (by decide)
  have arrived : w.inbox = encodeFrame frame ++ later.flatMap encodeFrame := by
    simpa using receiving.arrived
  have lower := receiving.drained rfl
  have upper := receiving.heads
  rw [lower] at upper
  apply Achieves.bind
  apply (achieves_nextSize works headers toRead small arrived).mono
  rintro _ _ ⟨rfl, counter, clock, rfl⟩
  simp only
  rw [if_neg (Nat.not_lt_of_le short)]
  apply Achieves.bind
  have refills := achieves_refill
    (w := { w with inbox := frame ++ later.flatMap encodeFrame, counter, clock })
    works receiving.notFailed lower upper.symm rfl
  apply refills.mono
  intro _ refilled receiving
  apply Achieves.bind
  apply Achieves.get_bind
  rw [if_pos (Or.inl headers)]
  apply Achieves.pure
  apply Achieves.bind
  apply (achieves_readBytes receiving enough).mono
  rintro _ _ ⟨rfl, receiving⟩
  exact Achieves.pure ⟨rfl, receiving⟩

/-- A request that the next frame cannot serve ends in a failure, if it ends at all. -/
theorem ensures_readMore {segments : List Bytes} (receiving : Receiving w ⟨[], segments⟩)
    (small : ∀ frame ∈ segments, frame.length ≤ maxPayload) (first : Bytes) {toRead : ℕ}
    (unserved : ∀ frame later, segments = frame :: later →
      ¬(toRead ≤ frame.length ∧ frame.length ≤ 2 ^ 30)) :
    Ensures (readMore transport config first toRead) (fun _ after => after.ioFailed = true) w := by
  cases segments with
  | nil =>
      -- The call waits for a header that never arrives.
      have empty : w.inbox = [] := receiving.arrived
      apply Ensures.bind
      rw [nextSize, if_pos headers]
      apply Ensures.bind
      exact ensures_processRead_short works (by simp [empty, headerSize])
  | cons frame later =>
      have arrived : w.inbox = encodeFrame frame ++ later.flatMap encodeFrame := by
        simpa using receiving.arrived
      have lower := receiving.drained rfl
      have upper := receiving.heads
      rw [lower] at upper
      apply Ensures.bind
      refine (achieves_nextSize works headers toRead (small frame List.mem_cons_self)
        arrived).ensures.mono ?_
      rintro _ _ ⟨rfl, counter, clock, rfl⟩
      simp only
      apply Ensures.ite
      · intro _
        exact Ensures.modify_bind (Ensures.pure rfl)
      · intro short
        have refills := achieves_refill
          (w := { w with inbox := frame ++ later.flatMap encodeFrame, counter, clock })
          works receiving.notFailed lower upper.symm rfl
        apply Ensures.bind
        refine refills.ensures.mono ?_
        intro _ refilled receiving
        apply Ensures.bind
        apply Ensures.get_bind
        rw [if_pos (Or.inl headers)]
        apply Ensures.pure
        apply Ensures.bind
        apply Ensures.get_bind
        rw [if_neg]
        · exact Ensures.abort
        · rw [receiving.readBytesSize_eq]
          intro enough
          exact unserved frame later rfl ⟨enough, Nat.le_of_not_lt short⟩

include buffers

theorem achieves_recvDataInternal {nbyte : ℕ} {bytes : Bytes} {served : Reader UInt8}
    (receiving : Receiving w r) (read : r.read (2 ^ 30) nbyte = some (bytes, served)) :
    Achieves (recvDataInternal transport config nbyte)
      (fun out after => out = bytes ∧ Receiving after served) w := by
  rcases r with ⟨unread, segments⟩
  apply Achieves.get_bind
  rw [if_neg (by simp [receiving.notFailed]), if_neg (by simp [buffers]), receiving.readBytesSize_eq]
  rcases Nat.lt_or_ge unread.length nbyte with missing | enough
  · rw [if_neg (Nat.not_le_of_lt missing)]
    cases segments with
    | nil => simp [Reader.read, Nat.not_le_of_lt missing] at read
    | cons frame later =>
        rw [Reader.read_of_lt missing] at read
        split_ifs at read with fits
        cases read
        apply Achieves.bind
        apply (achieves_readBytes receiving (le_refl unread.length)).mono
        rintro _ _ ⟨rfl, receiving⟩
        simp only [List.drop_length, List.take_length] at receiving ⊢
        exact achieves_readMore works headers receiving unread fits.1 fits.2
  · rw [if_pos enough]
    rw [Reader.read_of_le enough] at read
    cases read
    exact achieves_readBytes receiving enough

theorem ensures_recvDataInternal {nbyte : ℕ} (receiving : Receiving w r)
    (small : ∀ frame ∈ r.segments, frame.length ≤ maxPayload)
    (unserved : r.read (2 ^ 30) nbyte = none) :
    Ensures (recvDataInternal transport config nbyte) (fun _ after => after.ioFailed = true) w := by
  rcases r with ⟨unread, segments⟩
  apply Ensures.get_bind
  rw [if_neg (by simp [receiving.notFailed]), if_neg (by simp [buffers]), receiving.readBytesSize_eq]
  rcases Nat.lt_or_ge unread.length nbyte with missing | enough
  · rw [if_neg (Nat.not_le_of_lt missing)]
    apply Ensures.bind
    refine (achieves_readBytes receiving (le_refl unread.length)).ensures.mono ?_
    rintro _ _ ⟨rfl, receiving⟩
    simp only [List.drop_length] at receiving
    apply ensures_readMore works headers receiving small
    rintro frame later rfl fits
    rw [Reader.read_of_lt missing, if_pos fits] at unserved
    exact nomatch unserved
  · rw [Reader.read_of_le enough] at unserved
    exact nomatch unserved

omit works headers in
omit buffers in
theorem ensures_recvAll_latched (failed : w.ioFailed = true) (sizes : List ℕ) :
    Ensures (recvAll transport config sizes) (fun _ after => after.ioFailed = true) w := by
  induction sizes with
  | nil => exact Ensures.pure failed
  | cons size sizes ih =>
      apply Ensures.bind
      apply Ensures.get_bind
      rw [if_pos failed]
      apply Ensures.pure
      apply Ensures.bind
      refine ih.mono ?_
      intro _ _ failed
      exact Ensures.pure failed

theorem achieves_recvAll {sizes : List ℕ} {chunks : List Bytes} {served : Reader UInt8}
    (receiving : Receiving w r) (read : r.readAll (2 ^ 30) sizes = some (chunks, served)) :
    Achieves (recvAll transport config sizes)
      (fun out after => out = chunks ∧ Receiving after served) w := by
  induction sizes generalizing w r chunks with
  | nil =>
      cases read
      exact Achieves.pure ⟨rfl, receiving⟩
  | cons size sizes ih =>
      simp only [Reader.readAll, Option.bind_eq_bind, Option.bind_eq_some_iff, Prod.exists] at read
      rcases read with ⟨bytes, opened, first, more, final, others, rejoined⟩
      cases rejoined
      apply Achieves.bind
      apply (achieves_recvDataInternal works buffers headers receiving first).mono
      rintro _ _ ⟨rfl, receiving⟩
      apply Achieves.bind
      apply (ih receiving others).mono
      rintro _ _ ⟨rfl, receiving⟩
      exact Achieves.pure ⟨rfl, receiving⟩

theorem ensures_recvAll {sizes : List ℕ} (receiving : Receiving w r)
    (small : ∀ frame ∈ r.segments, frame.length ≤ maxPayload)
    (unserved : r.readAll (2 ^ 30) sizes = none) :
    Ensures (recvAll transport config sizes) (fun _ after => after.ioFailed = true) w := by
  induction sizes generalizing w r with
  | nil => exact nomatch unserved
  | cons size sizes ih =>
      apply Ensures.bind
      cases read : r.read (2 ^ 30) size with
      | none =>
          refine (ensures_recvDataInternal works buffers headers receiving small read).mono ?_
          intro _ _ failed
          apply Ensures.bind
          refine (ensures_recvAll_latched failed sizes).mono ?_
          intro _ _ failed
          exact Ensures.pure failed
      | some result =>
          rcases result with ⟨bytes, served⟩
          have servedSmall : ∀ frame ∈ served.segments, frame.length ≤ maxPayload :=
            fun frame among => small frame (Reader.segments_subset_of_read read among)
          have laterUnserved : served.readAll (2 ^ 30) sizes = none := by
            rw [← Option.not_isSome_iff_eq_none, ← Reader.isSome_readAll_cons read, unserved]
            exact Bool.false_ne_true
          refine (achieves_recvDataInternal works buffers headers receiving read).ensures.mono ?_
          rintro _ _ ⟨rfl, receiving⟩
          apply Ensures.bind
          refine (ih receiving servedSmall laterUnserved).mono ?_
          intro _ _ failed
          exact Ensures.pure failed

end Buffered

end Receiving

section Transparent

variable {transport : Transport} {config : ChannelConfig} {calls : List SendCall} {sizes : List ℕ}

/-- Every call of both wrappers returns, no failure is latched, and what the receiving wrapper hands
out is what the sending one was given. -/
def Transparent (transport : Transport) (config : ChannelConfig) (calls : List SendCall)
    (sizes : List ℕ) : Prop :=
  ∃ sender receiver chunks,
    sendAll transport config calls (new config) = (.returned (), sender) ∧
    recvAll transport config sizes { new config with inbox := sender.outbox } =
      (.returned chunks, receiver) ∧
    chunks.flatten = sentBytes calls ∧ sender.ioFailed = false ∧ receiver.ioFailed = false

/-- What a buffering channel needs: the sizes of all calls fit an `unsigned`, everything is flushed,
no frame is longer than the receiver accepts, and no request reaches into two new frames. -/
structure Aligned (policy : BufferPolicy) (calls : List SendCall) (sizes : List ℕ) : Prop where
  fits : ∀ call ∈ calls, call.sent.length < 2 ^ 32
  flushed : (framing policy calls).unsent = []
  short : ∀ frame ∈ (framing policy calls).frames, frame.length ≤ 2 ^ 30
  covers : CoversAtMostOne (starts 0 (framing policy calls).frames) 0 sizes

theorem sending_new (headers : config.prependHeader = true) :
    Sending (new config) { frames := [], unsent := [] } := by
  refine ⟨rfl, ⟨List.replicate headerSize 0, by simp, ?_⟩, rfl⟩
  simp [new, headers, SslBuffer.resize, SslBuffer.empty, SslBuffer.size, headerSize]

theorem receiving_new (config : ChannelConfig) (frames : List Bytes) :
    Receiving { new config with inbox := frames.flatMap encodeFrame } ⟨[], frames⟩ := by
  have heads : (new config).readBuffer.lowerHead = 0 ∧ (new config).readBuffer.upperHead = 0 := by
    simp only [new, SslBuffer.resize]
    split_ifs <;> exact ⟨rfl, rfl⟩
  exact ⟨rfl, by simp, heads.1.trans heads.2.symm, fun _ => heads.1, rfl⟩

section Buffered

variable (works : ∀ now, transport.works now = true)
  (buffers : config.policy.canBuffer = true) (headers : config.prependHeader = true)
  (total : sizes.sum = (sentBytes calls).length)

include works buffers headers total

theorem transparent_of_aligned (aligned : Aligned config.policy calls sizes) :
    Transparent transport config calls sizes := by
  have bounded : Framing.Bounded maxPayload (framing config.policy calls) := by
    refine ⟨by simp [aligned.flushed], fun frame among => ?_⟩
    exact (aligned.short frame among).trans (by decide)
  have content : (framing config.policy calls).frames.flatten = sentBytes calls := by
    have whole := content_framing config.policy calls
    simpa [Framing.content, aligned.flushed, acceptedBytes_eq aligned.fits] using whole
  rcases achieves_sendAll works buffers headers (sending_new headers) bounded with
    ⟨_, sender, sent, sending⟩
  rw [← content] at total
  have served := (isSome_readAll_start_iff total).mpr ⟨aligned.covers, aligned.short⟩
  rcases Option.isSome_iff_exists.mp served with ⟨⟨chunks, left⟩, read⟩
  rcases achieves_recvAll works buffers headers (receiving_new config _) read with
    ⟨out, receiver, received, handedOut, receiving⟩
  rcases Reader.rest_of_readAll read with ⟨rest, length⟩
  refine ⟨sender, receiver, chunks, sent, ?_, ?_, sending.notFailed, receiving.notFailed⟩
  · rw [sending.written, ← handedOut]
    exact received
  · rw [← content]
    exact List.IsPrefix.eq_of_length ⟨left.rest, rest.symm⟩ (length.trans total)

theorem aligned_of_transparent (transparent : Transparent transport config calls sizes) :
    Aligned config.policy calls sizes := by
  rcases transparent with ⟨sender, receiver, chunks, sent, received, same, -, notFailed⟩
  rcases ensures_sendAll works buffers headers calls (sending_new headers)
    ⟨Nat.zero_le _, nofun⟩ _ _ sent with ⟨sending, bounded⟩
  have receiving := receiving_new config (framing config.policy calls).frames
  rw [sending.written] at received
  cases read : Reader.readAll (2 ^ 30) sizes ⟨[], (framing config.policy calls).frames⟩ with
  | none =>
      have failed := ensures_recvAll works buffers headers receiving bounded.frames read _ _ received
      exact absurd failed (by simp [notFailed])
  | some result =>
      rcases result with ⟨out, left⟩
      rcases Reader.rest_of_readAll read with ⟨rest, length⟩
      -- As much is handed out as was sent, so nothing was cut and nothing is left unsent.
      have whole := congrArg List.length (content_framing config.policy calls)
      have acceptedLe := length_acceptedBytes_le calls
      have restLength := congrArg List.length rest
      simp only [Framing.content, Reader.rest, List.length_append, List.nil_append] at whole restLength
      have flushed : (framing config.policy calls).unsent.length = 0 := by omega
      have served : sizes.sum = (framing config.policy calls).frames.flatten.length := by omega
      have isSome : (Reader.readAll (2 ^ 30) sizes
          ⟨[], (framing config.policy calls).frames⟩).isSome := by
        rw [read]
        rfl
      rcases (isSome_readAll_start_iff served).mp isSome with ⟨covers, short⟩
      exact ⟨fits_of_length_le (by omega), List.length_eq_zero_iff.mp flushed, short, covers⟩

end Buffered

section Unbuffered

variable {w : EmpWrapper} (works : ∀ now, transport.works now = true)
  (direct : config.policy.canBuffer = false)

include works direct

theorem achieves_performSend_direct (notFailed : w.ioFailed = false) (call : SendCall) :
    Achieves (performSend transport config call)
      (fun _ after => after.outbox = w.outbox ++ call.sent ∧ after.ioFailed = false) w := by
  cases call with
  | send data =>
      simp only [performSend, sendDataInternal, direct, Bool.false_eq_true, if_false]
      apply Achieves.bind
      apply Achieves.get_bind
      rw [if_neg (by simp [notFailed])]
      apply Achieves.bind
      apply (achieves_processWrite works data).mono
      rintro _ _ ⟨clock, rfl⟩
      exact Achieves.modify (Achieves.modify ⟨rfl, notFailed⟩)
  | flush =>
      apply Achieves.get_bind
      rw [if_pos (Or.inl direct)]
      exact Achieves.pure ⟨by simp [SendCall.sent], notFailed⟩

theorem achieves_sendAll_direct (notFailed : w.ioFailed = false) (calls : List SendCall) :
    Achieves (sendAll transport config calls)
      (fun _ after => after.outbox = w.outbox ++ sentBytes calls ∧ after.ioFailed = false) w := by
  induction calls generalizing w with
  | nil => exact Achieves.pure ⟨by simp [sentBytes], notFailed⟩
  | cons call later ih =>
      apply Achieves.bind
      apply (achieves_performSend_direct works direct notFailed call).mono
      rintro _ sent ⟨written, notFailed⟩
      apply (ih notFailed).mono
      rintro _ _ ⟨writtenLater, notFailed⟩
      exact ⟨by simp [writtenLater, written, sentBytes], notFailed⟩

theorem achieves_recvAll_direct (notFailed : w.ioFailed = false) {sizes : List ℕ}
    (enough : sizes.sum ≤ w.inbox.length) :
    Achieves (recvAll transport config sizes)
      (fun chunks after => chunks.flatten = w.inbox.take sizes.sum ∧ after.ioFailed = false) w := by
  induction sizes generalizing w with
  | nil => exact Achieves.pure ⟨by simp, notFailed⟩
  | cons size later ih =>
      rw [List.sum_cons] at enough
      have first := achieves_processRead works (List.take_append_drop size w.inbox).symm
      rw [List.length_take_of_le (by omega)] at first
      apply Achieves.bind
      apply Achieves.get_bind
      rw [if_neg (by simp [notFailed]), if_pos direct]
      apply Achieves.bind
      apply first.mono
      rintro _ _ ⟨rfl, clock, rfl⟩
      apply Achieves.modify_bind
      apply Achieves.pure
      apply Achieves.bind
      refine Achieves.mono (ih ?_ ?_) ?_
      · exact notFailed
      · simp only [List.length_drop]
        omega
      rintro chunks _ ⟨handedOut, notFailed⟩
      refine Achieves.pure ⟨?_, notFailed⟩
      simp [handedOut, List.take_add]

end Unbuffered

/-- In the mode with headers a channel is transparent if and only if it has no buffer or its calls
are aligned. -/
theorem transparent_iff (works : ∀ now, transport.works now = true)
    (headers : config.prependHeader = true) (total : sizes.sum = (sentBytes calls).length) :
    Transparent transport config calls sizes ↔
      (config.policy.canBuffer = true → Aligned config.policy calls sizes) := by
  cases buffers : config.policy.canBuffer with
  | true =>
      constructor
      · intro transparent _
        exact aligned_of_transparent works buffers headers total transparent
      · intro aligned
        exact transparent_of_aligned works buffers headers total (aligned rfl)
  | false =>
      refine iff_of_true ?_ nofun
      rcases achieves_sendAll_direct works buffers (w := new config) rfl calls with
        ⟨_, sender, sent, written, senderWorks⟩
      have arrived : sender.outbox = sentBytes calls := by simpa [new] using written
      have enough : sizes.sum ≤ sender.outbox.length := by rw [arrived, total]
      rcases achieves_recvAll_direct works buffers
        (w := { new config with inbox := sender.outbox }) rfl enough with
        ⟨chunks, receiver, received, handedOut, receiverWorks⟩
      refine ⟨sender, receiver, chunks, sent, received, ?_, senderWorks, receiverWorks⟩
      rw [handedOut, arrived, total, List.take_length]

/-- A transport that never fails, with the default template arguments. -/
def reliable : Transport := { works := fun _ => true, pending := fun _ => 0 }

def defaultConfig : ChannelConfig := { policy := .default, prependHeader := true }

/-- Two frames, read by requests that meet their borders or cross one of them. -/
theorem transparent_crossing :
    Transparent reliable defaultConfig [.send [1, 2], .send [3], .flush, .send [4, 5], .flush]
      [1, 3, 1] := by
  refine (transparent_iff (fun _ => rfl) rfl rfl).mpr ?_
  intro _
  exact ⟨by decide, by decide, by decide, by decide⟩

/-- One request for two frames ends with the assertion in `read_bytes`, where a build without
assertions copies from behind the first frame; and what is not flushed never arrives. -/
theorem not_transparent_two_frames :
    (∃ sender, sendAll reliable defaultConfig [.send [1], .flush, .send [2], .flush]
        (new defaultConfig) = (.returned (), sender) ∧
      (recvAll reliable defaultConfig [2]
        { new defaultConfig with inbox := sender.outbox }).1 = .aborted) ∧
    (∃ sender, sendAll reliable defaultConfig [.send [1]] (new defaultConfig) =
        (.returned (), sender) ∧
      (recvAll reliable defaultConfig [1]
        { new defaultConfig with inbox := sender.outbox }).1 = .failed) := by
  exact ⟨⟨_, rfl, by decide⟩, ⟨_, rfl, by decide⟩⟩

end Transparent

end PracticalCrypto.Surf.EmpWrapper
