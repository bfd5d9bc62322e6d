import PracticalCrypto.Surf.Server.State

/-!
# The channel of the two-party computation

This file embeds `EmpWrapper` (`ssl/EmpWrapper.inl`), through which the circuits of
the two parties talk to each other, and its buffer `SSLBufferPolicy`
(`ssl/SSLBuffer.inl`). A wrapper collects what it is asked to send and writes it as
one frame, with the size of the frame in front, when it is flushed. The receiving
wrapper reads frames and hands out their bytes.

The functions of a wrapper return nothing that could tell of an error. Here a call
fails if it waits for bytes that never arrive. It aborts if an assertion does not
hold or a vector grows above its largest size; a build without assertions copies
from behind the end of the buffer instead.
-/

namespace PracticalCrypto.Surf

/-- The template argument `BufferType`: `NoBuffer` or `SSLBufferPolicy`. -/
inductive BufferPolicy where
  | noBuffer
  | sslBuffer (flushSize : ℕ) (holdFlush : Bool)
deriving DecidableEq, Repr

namespace BufferPolicy

/-- `SSLBuffer`. -/
def default : BufferPolicy := .sslBuffer 16384 true

def canBuffer : BufferPolicy → Bool
  | noBuffer => false
  | sslBuffer _ _ => true

def shouldSend (size : ℕ) : BufferPolicy → Bool
  | noBuffer => false
  | sslBuffer flushSize holdFlush => !holdFlush && decide (flushSize ≤ size)

end BufferPolicy

structure SslBuffer where
  buffer : Bytes
  lowerHead : ℕ
  upperHead : ℕ
deriving DecidableEq, Repr

namespace SslBuffer

def empty : SslBuffer := { buffer := [], lowerHead := 0, upperHead := 0 }

def size (b : SslBuffer) : ℕ := b.buffer.length

/-- `resize`: the buffer is cleared unless it grows. -/
def resize (nbyte : ℕ) (b : SslBuffer) : SslBuffer :=
  let kept := if nbyte ≤ b.size then empty else b
  { kept with buffer := kept.buffer ++ List.replicate (nbyte - kept.size) 0 }

theorem resize_drained (b : SslBuffer) (nbyte : ℕ) (lower : b.lowerHead = 0)
    (upper : b.upperHead = 0) :
    ∃ bytes : Bytes, bytes.length = nbyte ∧ b.resize nbyte = ⟨bytes, 0, 0⟩ := by
  unfold resize
  split_ifs with shrinks
  · exact ⟨_, by simp [empty, size], rfl⟩
  · refine ⟨b.buffer ++ List.replicate (nbyte - b.size) 0, ?_, by simp [lower, upper]⟩
    simp only [size, List.length_append, List.length_replicate] at shrinks ⊢
    omega

theorem size_resize (b : SslBuffer) (nbyte : ℕ) : (b.resize nbyte).size = nbyte := by
  unfold resize
  split_ifs with shrinks
  · simp [empty, size]
  · simp only [size, List.length_append, List.length_replicate] at shrinks ⊢
    omega

def addRead (nbyte : ℕ) (b : SslBuffer) : SslBuffer := { b with upperHead := b.upperHead + nbyte }

def readBytesSize (b : SslBuffer) : ℕ := b.upperHead - b.lowerHead

/-- What `read_bytes` does to the heads. -/
def advance (nbyte : ℕ) (b : SslBuffer) : SslBuffer :=
  if b.lowerHead + nbyte = b.upperHead then { b with lowerHead := 0, upperHead := 0 }
  else { b with lowerHead := b.lowerHead + nbyte }

/-- Copy bytes into the buffer behind its first `start`. -/
def fill (start : ℕ) (bytes : Bytes) (b : SslBuffer) : SslBuffer :=
  { b with buffer := b.buffer.take start ++ bytes ++ b.buffer.drop (start + bytes.length) }

theorem size_fill (b : SslBuffer) {bytes : Bytes} (fits : bytes.length ≤ b.size) :
    (b.fill 0 bytes).size = b.size := by
  simp only [size, fill, List.take_zero, List.nil_append, Nat.zero_add, List.length_append,
    List.length_drop] at fits ⊢
  omega

end SslBuffer

/-- `RWCounter`. -/
structure RwCounter where
  readCounter : ℕ
  writeCounter : ℕ
  roundCounter : ℕ
deriving DecidableEq, Repr

namespace RwCounter

def trackRead (bytes : ℕ) (c : RwCounter) : RwCounter :=
  { c with readCounter := c.readCounter + bytes }

def trackWrite (bytes : ℕ) (c : RwCounter) : RwCounter :=
  { c with writeCounter := c.writeCounter + bytes }

def trackRound (c : RwCounter) : RwCounter := { c with roundCounter := c.roundCounter + 1 }

end RwCounter

/-- The members of a wrapper, and what its `ssl` object has received and written. -/
structure EmpWrapper where
  writeBuffer : SslBuffer
  readBuffer : SslBuffer
  counter : RwCounter
  ioFailed : Bool
  inbox : Bytes
  outbox : Bytes
  /-- The number of requests to the transport so far. -/
  clock : ℕ
deriving DecidableEq, Repr

/-- What happens below the wrapper. -/
structure Transport where
  /-- Whether a call of `Util::process_data` succeeds. -/
  works : ℕ → Bool
  /-- `SSL_pending`. -/
  pending : ℕ → ℕ

/-- The template arguments of a wrapper that decide what it does. -/
structure ChannelConfig where
  policy : BufferPolicy
  prependHeader : Bool
deriving DecidableEq, Repr

namespace EmpWrapper

/-- `sizeof(uint64_t)`, the size of a header. -/
def headerSize : ℕ := 8

/-- The constructor. The source does not compile for `NoBuffer`, which has no `resize`; what is said of
that policy is about the branches of the other members for it, on a wrapper with nothing reserved
but the header. -/
def new (config : ChannelConfig) : EmpWrapper :=
  let reserved := SslBuffer.empty.resize (if config.prependHeader then headerSize else 0)
  { writeBuffer := reserved
    readBuffer := reserved
    counter := { readCounter := 0, writeCounter := 0, roundCounter := 0 }
    ioFailed := false
    inbox := []
    outbox := []
    clock := 0 }

variable (transport : Transport) (config : ChannelConfig)

def tick : Handler EmpWrapper ℕ := do
  let wrapper ← Handler.get
  Handler.modify fun wrapper => { wrapper with clock := wrapper.clock + 1 }
  pure wrapper.clock

def track (count : RwCounter → RwCounter) : Handler EmpWrapper Unit :=
  Handler.modify fun wrapper => { wrapper with counter := count wrapper.counter }

def markIoFailed : Handler EmpWrapper Unit :=
  Handler.modify fun wrapper => { wrapper with ioFailed := true }

/-- `Util::process_data` with `SSL_write`. -/
def processWrite (bytes : Bytes) : Handler EmpWrapper Unit :=
  if bytes = [] then pure ()
  else do
    let now ← tick
    if transport.works now then
      Handler.modify fun wrapper => { wrapper with outbox := wrapper.outbox ++ bytes }
    else markIoFailed

/-- `Util::process_data` with `SSL_read`. Nothing is returned if it fails. -/
def processRead (nbyte : ℕ) : Handler EmpWrapper (Option Bytes) :=
  if nbyte = 0 then pure (some [])
  else do
    let now ← tick
    if transport.works now then do
      let wrapper ← Handler.get
      Handler.require (nbyte ≤ wrapper.inbox.length)
      Handler.modify fun wrapper => { wrapper with inbox := wrapper.inbox.drop nbyte }
      pure (some (wrapper.inbox.take nbyte))
    else do
      markIoFailed
      pure none

section Send

/-- `buffer_data`, which takes the size as an `unsigned`. -/
def bufferData (data : Bytes) : Handler EmpWrapper Unit := do
  let nbyte := data.length % 2 ^ 32
  let wrapper ← Handler.get
  if wrapper.writeBuffer.size + nbyte < 2 ^ 63 then
    Handler.modify fun wrapper =>
      { wrapper with
        writeBuffer :=
          { wrapper.writeBuffer with buffer := wrapper.writeBuffer.buffer ++ data.take nbyte } }
  else Handler.abort

/-- Write the size of the frame into the space in front of it. -/
def writeHeader : Handler EmpWrapper Unit := do
  Handler.modify fun wrapper =>
    { wrapper with
      writeBuffer :=
        wrapper.writeBuffer.fill 0 (BigEndian.ofNat headerSize wrapper.writeBuffer.size) }
  track (RwCounter.trackWrite headerSize)

def flush : Handler EmpWrapper Unit := do
  let wrapper ← Handler.get
  let size := wrapper.writeBuffer.size
  if config.policy.canBuffer = false ∨ size = 0 ∨
      (config.prependHeader = true ∧ size = headerSize) then pure ()
  else do
    if config.prependHeader then writeHeader else pure ()
    let wrapper ← Handler.get
    if wrapper.ioFailed then pure () else processWrite transport wrapper.writeBuffer.buffer
    track RwCounter.trackRound
    Handler.modify fun wrapper =>
      { wrapper with
        writeBuffer :=
          if config.prependHeader then wrapper.writeBuffer.resize headerSize
          else SslBuffer.empty }

def flushIfFull : Handler EmpWrapper Unit := do
  let wrapper ← Handler.get
  if config.policy.shouldSend wrapper.writeBuffer.size then flush transport config else pure ()

/-- Without a buffer, every call is a message of its own. -/
def sendAtOnce (data : Bytes) : Handler EmpWrapper Unit := do
  let wrapper ← Handler.get
  if wrapper.ioFailed then pure () else processWrite transport data
  track RwCounter.trackRound

def sendDataInternal (data : Bytes) : Handler EmpWrapper Unit := do
  if config.policy.canBuffer then do
    bufferData data
    flushIfFull transport config
  else sendAtOnce transport data
  track (RwCounter.trackWrite data.length)

end Send

section Receive

/-- `read_bytes`, with its assertion. -/
def readBytes (nbyte : ℕ) : Handler EmpWrapper Bytes := do
  let wrapper ← Handler.get
  if nbyte ≤ wrapper.readBuffer.readBytesSize then do
    Handler.modify fun wrapper =>
      { wrapper with readBuffer := wrapper.readBuffer.advance nbyte }
    pure ((wrapper.readBuffer.buffer.drop wrapper.readBuffer.lowerHead).take nbyte)
  else Handler.abort

/-- The size of what is read next: that of the frame, or what is still needed. -/
def nextSize (toRead : ℕ) : Handler EmpWrapper (Option ℕ) :=
  if config.prependHeader then do
    let header ← processRead transport headerSize
    match header with
    | none => pure none
    | some bytes => do
        track (RwCounter.trackRead headerSize)
        pure (some (BigEndian.toNat bytes - headerSize))
  else pure (some toRead)

/-- Read from the socket into the read buffer, behind its first `start` bytes. -/
def refill (start nbyte : ℕ) : Handler EmpWrapper Unit := do
  Handler.modify fun wrapper =>
    { wrapper with readBuffer := wrapper.readBuffer.resize (start + nbyte) }
  let read ← processRead transport nbyte
  Handler.modify fun wrapper =>
    { wrapper with
      readBuffer := (wrapper.readBuffer.fill start (read.getD [])).addRead nbyte
      counter := wrapper.counter.trackRead nbyte }

/-- Without headers, take whatever else of the record has arrived. -/
def drainPending (start : ℕ) : Handler EmpWrapper Unit := do
  let wrapper ← Handler.get
  if config.prependHeader = true ∨ wrapper.ioFailed = true then pure ()
  else do
    let now ← tick
    if transport.pending now = 0 then pure () else refill transport start (transport.pending now)

/-- The part of `recv_data_internal` behind the empty read buffer. It reads one frame. -/
def readMore (first : Bytes) (toRead : ℕ) : Handler EmpWrapper Bytes := do
  let size ← nextSize transport config toRead
  match size with
  | none => pure (first ++ List.replicate toRead 0)
  | some size =>
      if 2 ^ 30 < size then do
        markIoFailed
        pure (first ++ List.replicate toRead 0)
      else do
        refill transport 0 size
        drainPending transport config size
        let rest ← readBytes toRead
        pure (first ++ rest)

def recvDataInternal (nbyte : ℕ) : Handler EmpWrapper Bytes := do
  let wrapper ← Handler.get
  if wrapper.ioFailed then pure (List.replicate nbyte 0)
  else if config.policy.canBuffer = false then do
    let read ← processRead transport nbyte
    track (RwCounter.trackRead nbyte)
    pure (read.getD (List.replicate nbyte 0))
  else if nbyte ≤ wrapper.readBuffer.readBytesSize then readBytes nbyte
  else do
    let first ← readBytes wrapper.readBuffer.readBytesSize
    readMore transport config first (nbyte - wrapper.readBuffer.readBytesSize)

end Receive

/-- What the sending side may be asked for. -/
inductive SendCall where
  | send (data : Bytes)
  | flush

def performSend : SendCall → Handler EmpWrapper Unit
  | .send data => sendDataInternal transport config data
  | .flush => flush transport config

def sendAll (calls : List SendCall) : Handler EmpWrapper Unit :=
  Handler.forEach (performSend transport config) calls

def recvAll (sizes : List ℕ) : Handler EmpWrapper (List Bytes) :=
  Handler.collect (recvDataInternal transport config) sizes

end EmpWrapper

end PracticalCrypto.Surf
