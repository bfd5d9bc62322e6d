import Mathlib.Data.Int.ModEq
import Mathlib.Data.Nat.Notation
import Mathlib.Order.Lattice
import Mathlib.Tactic.Common
import PracticalCrypto.Surf.Server.State

/-!
# Loops that transfer an exact number of bytes

This file embeds `Util::process_data` of `surf-impl/src/ssl/Util.inl` and the functions
`read_exact_blocking` of `ssl/ThreePartyHandshake.cpp` and `nodes/Server.cpp`. All of
them call `SSL_read` or `SSL_write` until the requested bytes are transferred, wait with
`poll` when the connection is not ready, and give up on any other error. They differ in
how much they ask for: the first asks for a TLS record at most, the others for all that
is left, narrowed to an `int`.

The transport answers every call as it likes, but it transfers no more than it is asked
for. The loops keep the invariant that what they have done is one transfer of the bytes so
far.
-/

namespace PracticalCrypto.Surf.ExactIo

/-- What `SSL_get_error` says of a call that has transferred nothing. -/
inductive SslError where
  | wantRead
  | wantWrite
  | fatal (code : ℕ)
deriving DecidableEq, Repr

/-- A `poll` without a timeout ends, is interrupted (`EINTR`) or fails. -/
inductive PollResult where
  | ready
  | interrupted
  | failed
deriving DecidableEq, Repr

/-- What a call of `SSL_read` or `SSL_write` returns, and what `SSL_get_error` and `poll` say in
case it is not positive. -/
structure IoResult where
  amount : ℤ
  error : SslError
  poll : PollResult
deriving DecidableEq, Repr

/-- The connection: its answer to each call, by the amount that is asked for, and the bytes that
the peer sends. -/
structure SslTransport where
  answer : ℕ → ℤ → IoResult
  incoming : ℕ → UInt8
  /-- A call transfers no more than it is asked for. -/
  bounded : ∀ call amount, 0 < (answer call amount).amount → (answer call amount).amount ≤ amount

/-- The memory behind the pointer of the caller, the number of bytes received and the bytes sent. -/
structure Endpoint where
  memory : ℕ → UInt8
  received : ℕ
  sent : List UInt8

/-- The argument `func` of `process_data`. -/
inductive Operation where
  | sslRead
  | sslWrite
deriving DecidableEq, Repr

/-- A call that transfers `count` bytes at the offset. -/
def Operation.perform (incoming : ℕ → UInt8) (offset count : ℕ) (e : Endpoint) :
    Operation → Endpoint
  | sslRead =>
      { e with
        memory := fun i =>
          if offset ≤ i ∧ i < offset + count then incoming (e.received + (i - offset))
          else e.memory i
        received := e.received + count }
  | sslWrite => { e with sent := e.sent ++ (List.range' offset count).map e.memory }

/-- How a loop ends, after how many bytes and how many calls. -/
structure LoopEnd where
  ok : Bool
  processed : ℕ
  calls : ℕ
  state : Endpoint

section Model

/-- What a loop does after a call. -/
inductive Round where
  | transferred (count : ℕ)
  | retry
  | giveUp
deriving DecidableEq, Repr

/-- The body of the loops behind the call. -/
def IoResult.round (result : IoResult) : Round :=
  if 0 < result.amount then .transferred result.amount.toNat
  else
    match result.error, result.poll with
    | .fatal _, _ => .giveUp
    | _, .failed => .giveUp
    | _, _ => .retry

variable (transport : SslTransport) (operation : Operation) (request : ℕ → ℤ) (nbyte : ℕ)

/-- The loop of all three functions for at most `fuel` rounds; `request` is what a call asks for
when so many bytes are left. -/
def exactLoop : (fuel calls processed : ℕ) → Endpoint → Option LoopEnd
  | 0, _, _, _ => none
  | fuel + 1, calls, processed, e =>
      if processed < nbyte then
        match (transport.answer calls (request (nbyte - processed))).round with
        | .transferred count =>
            exactLoop fuel (calls + 1) (processed + count)
              (operation.perform transport.incoming processed count e)
        | .retry => exactLoop fuel (calls + 1) processed e
        | .giveUp => some ⟨false, processed, calls + 1, e⟩
      else some ⟨true, processed, calls, e⟩

/-- The amount that `process_data` asks for. -/
def clampedAmount (left : ℕ) : ℤ := (min maxPlainLength left : ℕ)

/-- `static_cast<int>(left)`. -/
def narrowedAmount (left : ℕ) : ℤ := (left : ℤ).bmod (2 ^ 32)

/-- `Util::process_data`. -/
def processData (fuel : ℕ) (e : Endpoint) : Option LoopEnd :=
  exactLoop transport operation clampedAmount nbyte fuel 0 0 e

/-- `read_exact_blocking` without its diagnostics, which the two of them differ in. -/
def readExact (ssl : Option SslTransport) (len fuel : ℕ) (e : Endpoint) : Option LoopEnd :=
  match ssl with
  | none => some ⟨false, 0, 0, e⟩
  | some transport => exactLoop transport .sslRead narrowedAmount len fuel 0 0 e

/-- `read_exact_blocking` of `ssl/ThreePartyHandshake.cpp`. -/
def ThreePartyHandshake.readExactBlocking (ssl : Option SslTransport) (len fuel : ℕ) :
    Endpoint → Option LoopEnd := readExact ssl len fuel

/-- `read_exact_blocking` of `nodes/Server.cpp`. -/
def Server.readExactBlocking (ssl : Option SslTransport) (len fuel : ℕ) :
    Endpoint → Option LoopEnd := readExact ssl len fuel

end Model

section Transfers

theorem Operation.perform_perform (operation : Operation) (incoming : ℕ → UInt8)
    (processed count : ℕ) (e : Endpoint) :
    operation.perform incoming processed count (operation.perform incoming 0 processed e) =
      operation.perform incoming 0 (processed + count) e := by
  cases operation with
  | sslRead =>
      simp only [perform, Endpoint.mk.injEq, and_true, Nat.zero_le, true_and, Nat.zero_add,
        Nat.sub_zero, Nat.add_assoc]
      funext i
      rcases Nat.lt_or_ge i processed with early | late
      · simp [early, Nat.not_le_of_lt early, Nat.lt_add_right count early]
      · simp [late, Nat.not_lt_of_le late, Nat.add_sub_cancel' late]
  | sslWrite =>
      have joined := List.range'_append_1 (s := 0) (m := processed) (n := count)
      rw [Nat.zero_add] at joined
      simp [perform, ← joined]

theorem Operation.perform_nothing (operation : Operation) (incoming : ℕ → UInt8) (e : Endpoint) :
    operation.perform incoming 0 0 e = e := by
  cases operation <;> simp [perform]

theorem clampedAmount_le (left : ℕ) : clampedAmount left ≤ left :=
  Int.ofNat_le.mpr (Nat.min_le_right _ _)

theorem bmod_le_self (value modulus : ℕ) : (value : ℤ).bmod modulus ≤ value := by
  have reduced : (value : ℤ) % modulus ≤ value := by
    rw [← Int.natCast_emod]
    exact Int.ofNat_le.mpr (Nat.mod_le value modulus)
  rw [Int.bmod_def]
  split_ifs
  · exact reduced
  · omega

theorem narrowedAmount_le (left : ℕ) : narrowedAmount left ≤ left := bmod_le_self left _

end Transfers

section Loop

/-- The call has met a fatal error or a failed `poll`. -/
def IoResult.GivesUp (result : IoResult) : Prop :=
  result.amount ≤ 0 ∧ ((∃ code, result.error = .fatal code) ∨ result.poll = .failed)

theorem IoResult.givesUp_of_round {result : IoResult} (gaveUp : result.round = .giveUp) :
    result.GivesUp := by
  rcases result with ⟨amount, error, poll⟩
  simp only [round] at gaveUp
  split_ifs at gaveUp with positive
  refine ⟨not_lt.mp positive, ?_⟩
  cases error <;> cases poll <;> simp at gaveUp ⊢

theorem IoResult.amount_of_round {result : IoResult} {count : ℕ}
    (transferred : result.round = .transferred count) :
    0 < count ∧ (count : ℤ) = result.amount := by
  simp only [round] at transferred
  split_ifs at transferred with positive
  · cases transferred
    omega
  · split at transferred <;> cases transferred

variable {transport : SslTransport} {operation : Operation} {request : ℕ → ℤ} {nbyte : ℕ}

/-- How a loop for `nbyte` bytes may end that has begun with the endpoint `before`. -/
structure Exact (transport : SslTransport) (operation : Operation) (request : ℕ → ℤ) (nbyte : ℕ)
    (before : Endpoint) (ended : LoopEnd) : Prop where
  /-- The bytes are transferred in order, without gaps and repeats. -/
  contiguous : ended.state = operation.perform transport.incoming 0 ended.processed before
  whole : ended.ok = true → ended.processed = nbyte
  gaveUp : ended.ok = false → ended.processed < nbyte ∧ 0 < ended.calls ∧
    (transport.answer (ended.calls - 1) (request (nbyte - ended.processed))).GivesUp

theorem processed_add_le (narrow : ∀ left, request left ≤ left) {calls processed count : ℕ}
    (more : processed < nbyte)
    (transferred : (transport.answer calls (request (nbyte - processed))).round =
      .transferred count) : processed + count ≤ nbyte := by
  rcases IoResult.amount_of_round transferred with ⟨positive, amount⟩
  have asked := transport.bounded calls (request (nbyte - processed)) (by omega)
  have left := narrow (nbyte - processed)
  omega

/-- The loop keeps the invariant that it has made one transfer of the bytes so far. -/
theorem exact_of_exactLoop (narrow : ∀ left, request left ≤ left) {fuel calls processed : ℕ}
    {before : Endpoint} {ended : LoopEnd} (within : processed ≤ nbyte)
    (returned : exactLoop transport operation request nbyte fuel calls processed
      (operation.perform transport.incoming 0 processed before) = some ended) :
    Exact transport operation request nbyte before ended := by
  induction fuel generalizing calls processed with
  | zero => simp [exactLoop] at returned
  | succ fuel ih =>
      rw [exactLoop] at returned
      split_ifs at returned with more
      · cases round : (transport.answer calls (request (nbyte - processed))).round with
        | transferred count =>
            simp only [round, operation.perform_perform] at returned
            exact ih (processed_add_le narrow more round) returned
        | retry =>
            simp only [round] at returned
            exact ih within returned
        | giveUp =>
            simp only [round] at returned
            cases returned
            exact ⟨rfl, nofun, fun _ => ⟨more, Nat.succ_pos calls, IoResult.givesUp_of_round round⟩⟩
      · cases returned
        exact ⟨rfl, fun _ => Nat.le_antisymm within (Nat.le_of_not_lt more), nofun⟩

/--
The loops return `true` only after they have transferred exactly the requested bytes in order, and
`false` only after a fatal error or a failed `poll`.
-/
theorem exact_transfers (transport : SslTransport) (nbyte fuel : ℕ) (before : Endpoint)
    (ended : LoopEnd) :
    (∀ operation, processData transport operation nbyte fuel before = some ended →
        Exact transport operation clampedAmount nbyte before ended) ∧
      (ThreePartyHandshake.readExactBlocking (some transport) nbyte fuel before = some ended →
        Exact transport .sslRead narrowedAmount nbyte before ended) ∧
      (Server.readExactBlocking (some transport) nbyte fuel before = some ended →
        Exact transport .sslRead narrowedAmount nbyte before ended) := by
  have started : ∀ operation : Operation,
      before = operation.perform transport.incoming 0 0 before :=
    fun operation => (operation.perform_nothing transport.incoming before).symm
  have blocking : readExact (some transport) nbyte fuel before = some ended →
      Exact transport .sslRead narrowedAmount nbyte before ended := by
    intro returned
    rw [readExact, started .sslRead] at returned
    exact exact_of_exactLoop narrowedAmount_le (Nat.zero_le nbyte) returned
  refine ⟨fun operation returned => ?_, blocking, blocking⟩
  rw [processData, started operation] at returned
  exact exact_of_exactLoop clampedAmount_le (Nat.zero_le nbyte) returned

/-- Answers with an interruption between two short transfers. -/
def interruptedAnswer (call : ℕ) (amount : ℤ) : IoResult :=
  ⟨if call = 1 then -1 else min 2 amount, .wantWrite, .interrupted⟩

theorem interruptedAnswer_bounded (call : ℕ) (amount : ℤ)
    (positive : 0 < (interruptedAnswer call amount).amount) :
    (interruptedAnswer call amount).amount ≤ amount := by
  simp only [interruptedAnswer] at positive ⊢
  split_ifs at positive ⊢ <;> omega

def interruptedTransport : SslTransport where
  answer := interruptedAnswer
  incoming _ := 0
  bounded := interruptedAnswer_bounded

theorem exact_transfers_interrupted :
    let before : Endpoint := ⟨fun i => UInt8.ofNat i, 0, []⟩
    let ended : LoopEnd := ⟨true, 3, 3, { before with sent := [0, 1, 2] }⟩
    processData interruptedTransport .sslWrite 3 4 before = some ended ∧
      Exact interruptedTransport .sslWrite clampedAmount 3 before ended :=
  ⟨rfl, (exact_transfers interruptedTransport 3 4 _ _).1 .sslWrite rfl⟩

end Loop

section Progress

variable {transport : SslTransport} {operation : Operation} {request : ℕ → ℤ} {nbyte : ℕ}

/-- Interruptions do not end a loop: it returns when enough calls have transferred something. -/
theorem exactLoop_returns (asks : ∀ left, 0 < left → left ≤ nbyte → 0 < request left)
    (calm : ∀ call amount, ¬(transport.answer call amount).GivesUp) {moving : ℕ → Bool}
    (moves : ∀ call amount, moving call = true → 0 < amount →
      0 < (transport.answer call amount).amount)
    {fuel calls processed : ℕ} {e : Endpoint}
    (enough : nbyte ≤ processed + (List.range' calls fuel).countP moving) :
    ∃ ended, exactLoop transport operation request nbyte (fuel + 1) calls processed e = some ended ∧
      ended.ok = true := by
  induction fuel generalizing calls processed e with
  | zero =>
      have all : ¬processed < nbyte := by simpa using enough
      exact ⟨_, if_neg all, rfl⟩
  | succ fuel ih =>
      rw [exactLoop]
      split_ifs with more
      · have asked := asks (nbyte - processed) (by omega) (Nat.sub_le nbyte processed)
        have counted : (List.range' calls (fuel + 1)).countP moving =
            (List.range' (calls + 1) fuel).countP moving + if moving calls then 1 else 0 := by
          rw [List.range'_succ, List.countP_cons]
        cases round : (transport.answer calls (request (nbyte - processed))).round with
        | transferred count =>
            have positive := (IoResult.amount_of_round round).1
            apply ih
            split_ifs at counted <;> omega
        | retry =>
            apply ih
            have still : moving calls = false := by
              rw [← Bool.not_eq_true]
              intro moved
              simp [IoResult.round, moves calls _ moved asked] at round
            simp only [still, Bool.false_eq_true, if_false] at counted
            omega
        | giveUp => exact absurd (IoResult.givesUp_of_round round) (calm calls _)
      · exact ⟨_, rfl, rfl⟩

end Progress

section Sizes

theorem bmod_cases (value half : ℕ) :
    (value % (2 * half) < half ∧
        (value : ℤ).bmod (2 * half) = ((value % (2 * half) : ℕ) : ℤ)) ∨
      half ≤ value % (2 * half) ∧
        (value : ℤ).bmod (2 * half) = ((value % (2 * half) : ℕ) : ℤ) - (2 * half : ℕ) := by
  rw [Int.bmod_def, ← Int.natCast_emod]
  split_ifs with low
  · exact .inl ⟨by omega, rfl⟩
  · exact .inr ⟨by omega, rfl⟩

theorem narrowedAmount_of_lt {left : ℕ} (small : left < 2 ^ 31) : narrowedAmount left = left := by
  rcases bmod_cases left (2 ^ 31) with ⟨-, narrowed⟩ | ⟨high, -⟩
  · rw [Nat.mod_eq_of_lt (by omega)] at narrowed
    exact narrowed
  · omega

/-- Narrowed to an `int`, a large amount does not bring the rest below `2^31`. -/
theorem le_sub_of_narrowedAmount {left count : ℕ} (large : 2 ^ 31 ≤ left)
    (asked : (count : ℤ) ≤ narrowedAmount left) : 2 ^ 31 ≤ left - count := by
  have reduced := Nat.mod_le left (2 * 2 ^ 31)
  rcases bmod_cases left (2 ^ 31) with ⟨low, narrowed⟩ | ⟨high, narrowed⟩
  · have asked : (count : ℤ) ≤ (left % (2 * 2 ^ 31) : ℕ) := asked.trans narrowed.le
    omega
  · have asked : (count : ℤ) ≤ (left % (2 * 2 ^ 31) : ℕ) - (2 * 2 ^ 31 : ℕ) :=
      asked.trans narrowed.le
    omega

variable {transport : SslTransport} {operation : Operation} {nbyte : ℕ}

theorem not_ok_of_large {fuel calls processed : ℕ} {e : Endpoint} {ended : LoopEnd}
    (large : 2 ^ 31 ≤ nbyte - processed)
    (returned : exactLoop transport operation narrowedAmount nbyte fuel calls processed e =
      some ended) : ended.ok = false := by
  induction fuel generalizing calls processed e with
  | zero => simp [exactLoop] at returned
  | succ fuel ih =>
      have more : processed < nbyte := by omega
      rw [exactLoop, if_pos more] at returned
      cases round : (transport.answer calls (narrowedAmount (nbyte - processed))).round with
      | transferred count =>
          simp only [round] at returned
          rcases IoResult.amount_of_round round with ⟨positive, amount⟩
          have asked := transport.bounded calls (narrowedAmount (nbyte - processed)) (by omega)
          rw [← amount] at asked
          have rest := le_sub_of_narrowedAmount large asked
          exact ih (by omega) returned
      | retry =>
          simp only [round] at returned
          exact ih large returned
      | giveUp =>
          simp only [round] at returned
          cases returned
          rfl

/-- `read_exact_blocking` serves no request of `2^31` bytes or more, whatever the transport does. -/
theorem lt_of_readExact_ok {len fuel : ℕ} {before : Endpoint} {ended : LoopEnd}
    (returned : readExact (some transport) len fuel before = some ended) (ok : ended.ok = true) :
    len < 2 ^ 31 := by
  by_contra large
  have failed : ended.ok = false := not_ok_of_large (by omega) returned
  simp [failed] at ok

variable (calm : ∀ call amount, ¬(transport.answer call amount).GivesUp) {moving : ℕ → Bool}
  (moves : ∀ call amount, moving call = true → 0 < amount →
    0 < (transport.answer call amount).amount) {fuel : ℕ}

include calm moves

/-- It serves smaller ones, and `process_data` serves all, if the transport transfers something
often enough and never fails. -/
theorem readExact_returns {len : ℕ} (small : len < 2 ^ 31)
    (enough : len ≤ (List.range' 0 fuel).countP moving) (before : Endpoint) :
    ∃ ended, readExact (some transport) len (fuel + 1) before = some ended ∧ ended.ok = true := by
  apply exactLoop_returns _ calm moves (by omega)
  intro left positive within
  rw [narrowedAmount_of_lt (by omega)]
  omega

theorem processData_returns (enough : nbyte ≤ (List.range' 0 fuel).countP moving)
    (before : Endpoint) :
    ∃ ended, processData transport operation nbyte (fuel + 1) before = some ended ∧
      ended.ok = true := by
  apply exactLoop_returns _ calm moves (by omega)
  intro left positive _
  simp only [clampedAmount, maxPlainLength]
  omega

end Sizes

end PracticalCrypto.Surf.ExactIo
