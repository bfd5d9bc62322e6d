import PracticalCrypto.Surf.Server.State

/-!
# What the verifier asks of its environment

The circuits of the two-party protocol, the network and the elliptic-curve code
are outside the verifier's control flow. Each request to them carries the
number of earlier requests, so that the answers of an `Environment` may differ
from call to call. The primitive reads and writes of `nodes/Server.cpp` follow.
-/

namespace PracticalCrypto.Surf

structure AesEncBatchIn where
  key : Block
  ctr : Fin 16 → Block
  pt : Fin 16 → Block

structure AesEncBatchOut where
  ct : Fin 16 → Block
  ok : Bool

structure GcmTagIn where
  keyShare : Block
  iv : Block
  tagShare : Block
  maskOrUnused : Block

structure GcmTagOut where
  cheated : Bool
  tag : Block

/-- `GCMVfyCircuitIn`, with the commitment that `GCMVfyCommitCircuitIn` adds to it. -/
structure GcmVfyIn where
  key : Block
  iv : Block
  tagShare : Block
  serverTag : Bytes
  commitment : Bytes

/-- `GCMVfyCommitCircuitOut`; masked mode has no `keyOpened`. -/
structure GcmVfyOut where
  tagPassed : Bool
  cheated : Bool
  keyOpened : Bool

/-- `KSBatchCircuitIn`, without the inputs that stay zero on this side. -/
structure KsBatchIn where
  key : Block
  commitment : Bytes
  ctr : List Block

/-- The answers to everything the verifier does not compute itself. -/
structure Environment where
  /-- `socket.accept`: the byte stream of the connection that arrives, if one does. -/
  accept : ℕ → Option Bytes
  doHandshake : ℕ → Bool
  /-- `socket.pending` behind a read that may have left a part of its record. -/
  pending : ℕ → ℕ
  /-- The number of bytes that one `socket.read` delivers. -/
  readSize : ℕ → ℕ
  write : ℕ → Bool
  /-- Whether there is memory for this number of bytes. -/
  allocate : ℕ → ℕ → Bool
  /-- Whether the two-party library ends the process in this request. `emp::error` exits, for
  instance on the encoding of a point that it cannot read. -/
  exits : ℕ → Bool
  /-- Whether building a circuit gives a non-null pointer. -/
  build : ℕ → Circuit → Bool
  /-- Whether a preprocessing ends without an I/O failure. -/
  preproc : ℕ → Circuit → Bool
  aesEncBatch : ℕ → AesEncBatchIn → Option AesEncBatchOut
  gcmTag : ℕ → GcmTagIn → Option GcmTagOut
  gcmVfy : ℕ → GcmVfyIn → Option GcmVfyOut
  /-- `run_ks_batch_circuit` and its `ok` bit. -/
  ksBatch : ℕ → KsBatchIn → Bool
  rotate : ℕ → Block → Option RotateCircuitOut
  /-- `make_gcm_share_for`: shares of the powers of the hash key. -/
  gcmShare : ℕ → Block → Option Bytes
  /-- Whether the consistency check inside `make_gcm_share_for` succeeds. The prover reports it. -/
  gcmConsistent : ℕ → Bool
  /-- The field arithmetic of `GHash::share`. -/
  ghash : Bytes → Bytes → Bytes → Block
  /-- `KeyShare::create_new_share`: whether it succeeds, and the share it leaves behind. -/
  createNewShare : ℕ → KeyShare → UInt16 → Bytes → Bool × KeyShare
  finish : ℕ → KeyShare → Bytes → Bool
  ectf : ℕ → Option Bytes
  binder : ℕ → Block → Bool
  handshakeCircuit : ℕ → Bytes → Block → Option HandshakeKeyShares
  trafficCircuit : ℕ → Block → Option TrafficKeyShares
  resumptionCircuit : ℕ → Block → Option Block
  pskCircuit : ℕ → Circuit → Block → Option Block

/--
An environment in which every connection brings the given bytes, records have the
given size, and every write and every circuit succeeds.
-/
def Environment.cooperative (stream : Bytes) (recordSize : ℕ) : Environment where
  accept := fun _ => some stream
  doHandshake := fun _ => true
  pending := fun _ => 0
  readSize := fun _ => recordSize
  write := fun _ => true
  allocate := fun _ _ => true
  exits := fun _ => false
  build := fun _ _ => true
  preproc := fun _ _ => true
  aesEncBatch := fun _ input => some { ct := input.ctr, ok := true }
  gcmTag := fun _ input => some { cheated := false, tag := input.tagShare }
  gcmVfy := fun _ _ => some { tagPassed := true, cheated := false, keyOpened := true }
  ksBatch := fun _ _ => true
  rotate := fun _ share => some { nextShare := share, keyShare := share, iv := fun _ => 0 }
  gcmShare := fun _ _ => some []
  gcmConsistent := fun _ => true
  ghash := fun _ _ _ _ => 0
  createNewShare := fun _ _ group key => (true, { groupId := group, additiveShare := key })
  finish := fun _ _ _ => true
  ectf := fun _ => some []
  binder := fun _ _ => true
  handshakeCircuit := fun _ _ share =>
    some { chtsShare := share, shtsShare := share, msShare := share }
  trafficCircuit := fun _ share =>
    some { clientIv := fun _ => 0, serverIv := fun _ => 0, clientKeyShare := share,
           serverKeyShare := share, catsShare := share, satsShare := share }
  resumptionCircuit := fun _ share => some share
  pskCircuit := fun _ _ share => some share

/--
`GHash::share`, with the field arithmetic as an argument. It needs one power for
each block of the AAD and of the ciphertext and one for their lengths.
-/
def ghashShare (ghash : Bytes → Bytes → Bytes → Block) (powers aad ciphertext : Bytes) :
    Option Block :=
  if BlockMap.blocksOf aad.length + BlockMap.blocksOf ciphertext.length + 1 > 1088 then none
  else some (ghash powers aad ciphertext)

namespace Server

/-- The number of the next request to the environment. -/
def tick : Handler Server ℕ := do
  let server ← Handler.get
  Handler.modify fun server => { server with clock := server.clock + 1 }
  pure server.clock

/-- A request in which the library sets up oblivious transfers with the prover. -/
def libraryRequest (env : Environment) : Handler Server ℕ := do
  let now ← tick
  if env.exits now = true then Handler.abort else pure now

def modifySession (change : Session → Session) : Handler Server Unit :=
  Handler.modify fun server => { server with session := change server.session }

def record (event : Event) : Handler Server Unit :=
  modifySession fun session => { session with log := event :: session.log }

/-- `read_exact_blocking`. Bytes read before the stream ends are lost. -/
def readExact (length : ℕ) : Handler Server Bytes := do
  let server ← Handler.get
  Handler.modify fun server => { server with inbox := server.inbox.drop length }
  Handler.require (length ≤ server.inbox.length)
  pure (server.inbox.take length)

def readSingleHeader : Handler Server MessageHeader := do
  let bytes ← readExact 1
  Handler.ofOption (bytes.head?.bind MessageHeader.ofByte)

def readU16 : Handler Server UInt16 := do
  let bytes ← readExact 2
  pure (UInt16.ofNat (BigEndian.toNat bytes))

def readU32 : Handler Server UInt32 := do
  let bytes ← readExact 4
  pure (UInt32.ofNat (BigEndian.toNat bytes))

def readU64 : Handler Server UInt64 := do
  let bytes ← readExact 8
  pure (UInt64.ofNat (BigEndian.toNat bytes))

variable (env : Environment)

def write (bytes : Bytes) : Handler Server Unit := do
  let now ← tick
  Handler.require (env.write now = true)
  Handler.modify fun server => { server with outbox := server.outbox ++ bytes }

def writeSingleHeader (header : MessageHeader) : Handler Server Unit :=
  write env [header.toByte]

def requireCircuit (circuit : Circuit) : Handler Server Unit := do
  let server ← Handler.get
  Handler.require (server.circuits circuit = true)

section Keeps

open Handler

/--
Relations between servers that respect reading, writing, asking the environment
and what the handshake keeps of the messages.
-/
class IoBlind (rel : Server → Server → Prop) : Prop extends IsPreorder Server rel where
  io : ∀ (server : Server) (read quiet clock : ℕ)
    (buffer outbox clientPublicKey transcript : Bytes),
    rel server
      { server with
        inbox := server.inbox.drop read
        quiet, clock, buffer, outbox, clientPublicKey, transcript }

variable {rel : Server → Server → Prop} [IoBlind rel]

theorem keeps_tick : Keeps rel tick :=
  keeps_bind keeps_get fun _ =>
    keeps_bind (keeps_modify fun server => IoBlind.io server 0 _ _ _ _ _ _) fun _ => keeps_pure _

theorem keeps_libraryRequest {env : Environment} : Keeps rel (libraryRequest env) :=
  keeps_bind keeps_tick fun _ => keeps_ite keeps_abort (keeps_pure _)

theorem keeps_readExact (length : ℕ) : Keeps rel (readExact length) :=
  keeps_bind keeps_get fun _ =>
    keeps_bind (keeps_modify fun server => IoBlind.io server length _ _ _ _ _ _) fun _ =>
      keeps_bind (keeps_require _) fun _ => keeps_pure _

theorem keeps_readSingleHeader : Keeps rel readSingleHeader :=
  keeps_bind (keeps_readExact 1) fun _ => keeps_ofOption _

theorem keeps_readU16 : Keeps rel readU16 :=
  keeps_bind (keeps_readExact 2) fun _ => keeps_pure _

theorem keeps_readU32 : Keeps rel readU32 :=
  keeps_bind (keeps_readExact 4) fun _ => keeps_pure _

theorem keeps_readU64 : Keeps rel readU64 :=
  keeps_bind (keeps_readExact 8) fun _ => keeps_pure _

theorem keeps_write {env : Environment} (bytes : Bytes) : Keeps rel (write env bytes) :=
  keeps_bind keeps_tick fun _ =>
    keeps_bind (keeps_require _) fun _ =>
      keeps_modify fun server => IoBlind.io server 0 _ _ _ _ _ _

theorem keeps_requireCircuit (circuit : Circuit) : Keeps rel (requireCircuit circuit) :=
  keeps_bind keeps_get fun _ => keeps_require _

/-- Relations that building and dropping circuits respect as well. -/
class CircuitBlind (rel : Server → Server → Prop) : Prop extends IoBlind rel where
  circuits : ∀ (server : Server) (circuits : Circuit → Bool), rel server { server with circuits }

instance : CircuitBlind (Same session) where
  io _ _ _ _ _ _ _ _ := rfl
  circuits _ _ := rfl

instance circuitBlindLog : CircuitBlind (Same fun server : Server => server.session.log) where
  io _ _ _ _ _ _ _ _ := rfl
  circuits _ _ := rfl

instance : CircuitBlind (Same state) where
  io _ _ _ _ _ _ _ _ := rfl
  circuits _ _ := rfl

end Keeps

section Runs

open Handler

variable {server : Server}

theorem tick_eq :
    tick server = (.returned server.clock, { server with clock := server.clock + 1 }) := rfl

theorem ensures_tick :
    Ensures tick
      (fun now after => now = server.clock ∧ after = { server with clock := server.clock + 1 })
      server :=
  Ensures.get_bind (Ensures.modify_bind (Ensures.pure ⟨rfl, rfl⟩))

theorem ensures_requireCircuit (circuit : Circuit) :
    Ensures (requireCircuit circuit) (fun _ after => after = server) server :=
  Ensures.get_bind (Ensures.require fun _ => rfl)

theorem ensures_readExact (length : ℕ) :
    Ensures (readExact length)
      (fun bytes after => length ≤ server.inbox.length ∧ bytes = server.inbox.take length ∧
        after = { server with inbox := server.inbox.drop length })
      server := by
  refine Ensures.get_bind ?_
  refine Ensures.modify_bind ?_
  refine Ensures.require_bind fun available => ?_
  exact Ensures.pure ⟨available, rfl, rfl⟩

theorem ensures_readU64 {seq : UInt64} {unread : Bytes}
    (received : server.inbox = BigEndian.ofNat 8 seq.toNat ++ unread) :
    Ensures readU64 (fun value after => value = seq ∧ after = { server with inbox := unread })
      server := by
  refine Ensures.bind ((ensures_readExact 8).mono ?_)
  rintro _ _ ⟨_, rfl, rfl⟩
  refine Ensures.pure ⟨?_, by simp [received]⟩
  rw [received, List.take_left' (BigEndian.length_ofNat 8 _), BigEndian.toNat_ofNat]
  apply UInt64.toNat_inj.mp
  rw [UInt64.toNat_ofNat', Nat.mod_mod_of_dvd _ (by decide)]
  exact Nat.mod_eq_of_lt seq.toNat_lt

theorem ensures_readU32 {value : ℕ} {unread : Bytes} (small : value < 2 ^ 32)
    (received : server.inbox = BigEndian.ofNat 4 value ++ unread) :
    Ensures readU32
      (fun read after => read.toNat = value ∧ after = { server with inbox := unread }) server := by
  refine Ensures.bind ((ensures_readExact 4).mono ?_)
  rintro _ _ ⟨_, rfl, rfl⟩
  refine Ensures.pure ⟨?_, by simp [received]⟩
  rw [received, List.take_left' (BigEndian.length_ofNat 4 _), BigEndian.toNat_ofNat,
    UInt32.toNat_ofNat', Nat.mod_mod_of_dvd _ (by decide)]
  exact Nat.mod_eq_of_lt small

theorem returns_tick : Returns tick server :=
  Returns.get_bind (Returns.modify_bind Returns.pure)

theorem returns_libraryRequest {env : Environment} (stays : ∀ now, env.exits now = false) :
    Returns (libraryRequest env) server := by
  refine returns_tick.bind fun now _ _ => ?_
  simp only [stays now, Bool.false_eq_true, if_false]
  exact Returns.pure

theorem returns_readExact {length : ℕ} (available : length ≤ server.inbox.length) :
    Returns (readExact length) server :=
  Returns.get_bind (Returns.modify_bind (Returns.require_bind available Returns.pure))

end Runs

end Server

end PracticalCrypto.Surf
