import PracticalCrypto.Mta.F2128

/-!
# The batched MtA

This file embeds `F2128_MTA::generate_shares_batched` of
`surf-impl/src/mta/F2128MtA.inl` for multiplicative shares and both parties: the
verifier is the sender and the prover the receiver. The arguments of a run are the
random values that the parties draw. An array is a function of the index, and an
entry that the source does not write is zero here.

The oblivious transfer of the library is a parameter; `CorrectOt` is the assumption
that the receiver gets the entry that it chooses.
-/

namespace PracticalCrypto.F2128Mta

open BinaryWord Sse Gf128

/-- `l`, the number of multiplications in a batch. -/
def l : ℕ := 544

def gadgetElements : ℕ := 384

def numPowers : ℕ := 1088

/-- The two arrays of the sender and the choice bits, to the array of the receiver. -/
abbrev Ot : Type := (ℕ → BitVec 128) → (ℕ → BitVec 128) → (ℕ → Bool) → ℕ → BitVec 128

def CorrectOt (ot : Ot) : Prop :=
  ∀ zeros ones choices i, ot zeros ones choices i = if choices i then ones i else zeros i

/-- What the sender draws. -/
structure SenderRandom where
  aTilde : ℕ → BitVec 128
  aHat : ℕ → BitVec 128
  pads : ℕ → BitVec 128
  chi : ℕ → BitVec 128

/-- What the receiver draws. -/
structure ReceiverRandom where
  gadget : ℕ → BitVec 128
  beta : ℕ → BitVec 128
  chi : ℕ → BitVec 128

section Model

/-- `shift_right_bits`. -/
def shiftRightBits (bits : ℕ) (a : BitVec 128) : BitVec 128 :=
  if bits ≥ 64 then srliEpi64 (srliSi128 a 8) (bits - 64)
  else srliEpi64 a bits ||| slliEpi64 (srliSi128 a 8) (64 - bits)

/-- The first `n` rounds of the inner loop of `dot_product`. -/
def dotRounds (gadget : ℕ → BitVec 128) (offset : ℕ) (dot curr : BitVec 128) (n : ℕ) :
    BitVec 128 × BitVec 128 :=
  (List.range n).foldl (fun (dot, curr) j =>
    (if curr.getLsbD 0 then dot ^^^ gadget (offset + j) else dot, shiftRightBits 1 curr))
    (dot, curr)

/-- `dot_product`: the gadget entries at the bits that are set in three blocks. -/
def dotProduct (gamma gadget : ℕ → BitVec 128) : BitVec 128 :=
  (List.range 3).foldl (fun dot i => (dotRounds gadget (i * 128) dot (gamma i) 128).1) 0#128

/-- `produce_b`. -/
def produceB (gadget beta : ℕ → BitVec 128) : ℕ → BitVec 128 := fun i =>
  dotProduct (fun k => beta (3 * i + k)) gadget

/-- `produce_alpha`: each entry repeated for every gadget element, next to the other array's. -/
def produceAlpha (aTilde aHat : ℕ → BitVec 128) : ℕ → BitVec 128 := fun curr =>
  if curr % 2 = 0 then aTilde (curr / 2 / gadgetElements) else aHat (curr / 2 / gadgetElements)

/-- `get_batched_choice_bits`: every bit is used twice. -/
def getBatchedChoiceBits (beta : ℕ → BitVec 128) : ℕ → Bool := fun curr =>
  (beta (curr / 2 / 128)).getLsbD (curr / 2 % 128)

/-- The entries of one parity of an array, as in `get_sender_batched_out` and
`play_batched_receiver`. -/
def everySecond (entries : ℕ → BitVec 128) (parity : ℕ) : ℕ → BitVec 128 := fun i =>
  entries (2 * i + parity)

/-- `prepare_batched_pairs` and `play_batched_receiver`: what the receiver gets. -/
def received (ot : Ot) (sender : SenderRandom) (receiver : ReceiverRandom) : ℕ → BitVec 128 :=
  let alpha := produceAlpha sender.aTilde sender.aHat
  ot sender.pads (fun i => alpha i ^^^ sender.pads i) (getBatchedChoiceBits receiver.beta)

/-- `prove_consistency_batched`: the vector that the sender writes. -/
def proveConsistencyBatched (sender : SenderRandom) (chiHat : ℕ → BitVec 128) : ℕ → BitVec 128 :=
  fun curr =>
    let i := curr / 2
    if curr % 2 = 0 then mul (sender.chi i) (sender.aTilde i) ^^^ mul (chiHat i) (sender.aHat i)
    else (List.range l).foldl (fun acc j => acc ^^^
      (mul (sender.chi i) (everySecond sender.pads 0 (j * gadgetElements + i)) ^^^
        mul (chiHat i) (everySecond sender.pads 1 (j * gadgetElements + i)))) 0#128

/-- `check_consistency_batched`; a row is refused if `cmpBlock` finds the blocks equal. -/
def checkConsistencyBatched (r t : ℕ → BitVec 128) (chi chiHat : ℕ → BitVec 128)
    (beta : ℕ → Bool) : Bool :=
  (List.range gadgetElements).foldl (fun correct i =>
    let tmp := (List.range l).foldl (fun tmp j => tmp ^^^
      (mul (chi i) (everySecond t 0 (i * gadgetElements + j)) ^^^
        mul (chiHat i) (everySecond t 1 (i * gadgetElements + j)))) (r (2 * i + 1))
    let rhs := (List.range l).foldl (fun rhs j =>
      if beta (i * gadgetElements + j) then rhs ^^^ rhs else rhs) (r (2 * i))
    correct && tmp != rhs) true

/-- `compute_share_of`. -/
def computeShareOf (gadget : ℕ → BitVec 128) (myIn otherIn : BitVec 128) (i : ℕ)
    (t : ℕ → BitVec 128) : BitVec 128 :=
  (List.range gadgetElements).foldl
    (fun dot j => dot ^^^ mul (t (i * gadgetElements + j)) (gadget j)) 0#128 ^^^ mul myIn otherIn

/-- The first `n` rounds of the loop over the local powers with odd exponents. -/
def powerRounds (input : BitVec 128) (n : ℕ) : BitVec 128 × (ℕ → BitVec 128) :=
  let sq := mul input input
  (List.range n).foldl (fun (tmp, out) i =>
    (mul sq tmp, Function.update out (2 * i + 2) (mul sq tmp)))
    (input, Function.update (fun _ => 0#128) 0 input)

def localPowers (input : BitVec 128) : ℕ → BitVec 128 :=
  (powerRounds input (l - 1)).2

/-- The last loop of `compute_mult_shares`. -/
def replaceOddPowers (share : ℕ → BitVec 128 → BitVec 128) (out : ℕ → BitVec 128) :
    ℕ → BitVec 128 :=
  (List.range l).foldl (fun out i => Function.update out (2 * i) (share i (out (2 * i)))) out

/-- The loop of `compute_squares`. -/
def squareLoop (out : ℕ → BitVec 128) (lhs rhs : ℕ) : ℕ → BitVec 128 :=
  if lhs < numPowers then
    squareLoop (Function.update out lhs (mul (out rhs) (out rhs))) (lhs * 2 + 1) lhs
  else out
termination_by numPowers - lhs

/-- `compute_squares`. -/
def computeSquares (out : ℕ → BitVec 128) (start : ℕ) : ℕ → BitVec 128 :=
  squareLoop out (start * 2 + 1) start

/-- The first `n` rounds of squarings after the multiplications. -/
def evenRounds (out : ℕ → BitVec 128) (n : ℕ) : ℕ → BitVec 128 :=
  (List.range n).foldl (fun out i => computeSquares out (2 * i)) out

def computeEvenPowers (out : ℕ → BitVec 128) : ℕ → BitVec 128 :=
  evenRounds out l

/-- `generate_shares_batched` of both parties; it aborts if the check of the receiver fails. -/
def generateSharesBatched (ot : Ot) (sender : SenderRandom) (receiver : ReceiverRandom)
    (proverIn verifierIn : BitVec 128) : Option ((ℕ → BitVec 128) × (ℕ → BitVec 128)) :=
  let b := produceB receiver.gadget receiver.beta
  let t := received ot sender receiver
  let r := proveConsistencyBatched sender receiver.chi
  if checkConsistencyBatched r t sender.chi receiver.chi (getBatchedChoiceBits receiver.beta) then
    let ofProver := localPowers proverIn
    let ofVerifier := localPowers verifierIn
    let fromProver := fun i => ofProver (2 * i) ^^^ b i
    let fromVerifier := fun i => ofVerifier (2 * i) ^^^ sender.aTilde i
    let ofProver := replaceOddPowers (fun i _ =>
      computeShareOf receiver.gadget (b i) (fromVerifier i) i (everySecond t 0)) ofProver
    let ofVerifier := replaceOddPowers (fun i own =>
      computeShareOf receiver.gadget own (fromProver i) i (everySecond sender.pads 0)) ofVerifier
    some (computeEvenPowers ofProver, computeEvenPowers ofVerifier)
  else none

end Model

section DotProduct

theorem shiftRightBits_eq (a : BitVec 128) {bits : ℕ} (small : bits < 64) :
    shiftRightBits bits a = a >>> bits := by
  apply BitVec.eq_of_getLsbD_eq
  intro i inRegister
  rw [shiftRightBits, if_neg (by omega)]
  simp only [srliEpi64, slliEpi64, half, srliSi128, BitVec.getLsbD_or, BitVec.getLsbD_append,
    BitVec.getLsbD_ushiftRight, BitVec.getLsbD_shiftLeft, BitVec.getLsbD_extractLsb']
  have beyond : ∀ k, a.getLsbD (64 + (64 + k)) = false := fun k =>
    BitVec.getLsbD_of_ge a _ (by omega)
  split_ifs with low
  · by_cases near : bits + i < 64
    · have notMoved : i < 64 - bits := by omega
      simp [near, notMoved]
    · have moved : ¬i < 64 - bits := by omega
      have inside : i - (64 - bits) < 64 := by omega
      have index : 64 + (i - (64 - bits)) = bits + i := by omega
      simp [near, low, moved, inside, index]
  · by_cases near : bits + (i - 64) < 64
    · have index : 64 + (bits + (i - 64)) = bits + i := by omega
      simp [near, index, beyond]
    · rw [BitVec.getLsbD_of_ge a (bits + i) (by omega)]
      simp [near, beyond]

theorem elem_dotRounds (gadget : ℕ → BitVec 128) (offset : ℕ) (dot curr : BitVec 128) (n : ℕ) :
    elem (dotRounds gadget offset dot curr n).1 = elem dot +
        (∑ j ∈ Finset.range n, if curr.getLsbD j then elem (gadget (offset + j)) else 0) ∧
      (dotRounds gadget offset dot curr n).2 = curr >>> n := by
  induction n with
  | zero => simp [dotRounds]
  | succ n ih =>
      obtain ⟨sum, shifted⟩ := ih
      have step : dotRounds gadget offset dot curr (n + 1) =
          (if (dotRounds gadget offset dot curr n).2.getLsbD 0 then
            (dotRounds gadget offset dot curr n).1 ^^^ gadget (offset + n)
            else (dotRounds gadget offset dot curr n).1,
            shiftRightBits 1 (dotRounds gadget offset dot curr n).2) := by
        rw [dotRounds, List.range_succ, List.foldl_append]
        rfl
      rw [step, shifted, shiftRightBits_eq _ (by decide), BitVec.getLsbD_ushiftRight,
        Nat.add_zero, ← BitVec.shiftRight_add, Finset.sum_range_succ]
      refine ⟨?_, rfl⟩
      split_ifs
      · rw [elem_xor, sum, add_assoc]
      · rw [sum, add_zero]

theorem elem_dotProduct (gamma gadget : ℕ → BitVec 128) :
    elem (dotProduct gamma gadget) = ∑ j ∈ Finset.range gadgetElements,
      if (gamma (j / 128)).getLsbD (j % 128) then elem (gadget j) else 0 := by
  let term := fun j => if (gamma (j / 128)).getLsbD (j % 128) then elem (gadget j) else 0
  have block : ∀ (dot : BitVec 128) (k : ℕ),
      elem (dotRounds gadget (k * 128) dot (gamma k) 128).1 = elem dot + ∑ j ∈ Finset.range 128, term (k * 128 + j) := by
    intro dot k
    rw [(elem_dotRounds gadget (k * 128) dot (gamma k) 128).1]
    refine congrArg (elem dot + ·) (Finset.sum_congr rfl ?_)
    intro j inBlock
    have small := Finset.mem_range.mp inBlock
    have quotient : (k * 128 + j) / 128 = k := by omega
    have remainder : (k * 128 + j) % 128 = j := by omega
    simp only [term, quotient, remainder]
  have steps : ∀ n, elem ((List.range n).foldl (fun dot i =>
      (dotRounds gadget (i * 128) dot (gamma i) 128).1) 0#128) =
        ∑ j ∈ Finset.range (n * 128), term j := by
    intro n
    induction n with
    | zero => simp
    | succ n ih =>
        rw [List.range_succ, List.foldl_append, List.foldl_cons, List.foldl_nil, block, ih,
          Nat.succ_mul, Finset.sum_range_add]
  exact steps 3

end DotProduct

section Product

variable {ot : Ot} {sender : SenderRandom} {receiver : ReceiverRandom}

/-- The receiver gets the pads of the sender, with an entry added at the chosen ones. -/
theorem elem_received (correct : CorrectOt ot) (i j : ℕ) (inGadget : j < gadgetElements) :
    let k := i * gadgetElements + j
    elem (everySecond (received ot sender receiver) 0 k) = elem (everySecond sender.pads 0 k) +
      if (receiver.beta (3 * i + j / 128)).getLsbD (j % 128) then elem (sender.aTilde i) else 0 := by
  intro k
  have block : k / 128 = 3 * i + j / 128 := by
    simp only [k, gadgetElements]
    omega
  have bit : k % 128 = j % 128 := by
    simp only [k, gadgetElements]
    omega
  have entry : k / gadgetElements = i := by
    simp only [k, gadgetElements] at inGadget ⊢
    omega
  simp only [everySecond, received, Nat.add_zero]
  rw [correct, getBatchedChoiceBits, produceAlpha, Nat.mul_div_cancel_left k (by decide), block,
    bit, Nat.mul_mod_right, if_pos rfl, entry]
  split_ifs
  · rw [elem_xor, add_comm]
  · rw [add_zero]

theorem elem_computeShareOf (gadget : ℕ → BitVec 128) (myIn otherIn : BitVec 128) (i : ℕ)
    (t : ℕ → BitVec 128) :
    elem (computeShareOf gadget myIn otherIn i t) =
      (∑ j ∈ Finset.range gadgetElements, elem (t (i * gadgetElements + j)) * elem (gadget j)) +
        elem myIn * elem otherIn := by
  rw [computeShareOf, elem_xor, elem_foldl_xor, elem_zero, zero_add, elem_mul]
  simp only [elem_mul]

/-- The two parties get shares of the product of their inputs. -/
theorem elem_shares (correct : CorrectOt ot) (p v : BitVec 128) (i : ℕ) :
    let b := produceB receiver.gadget receiver.beta
    elem (computeShareOf receiver.gadget (b i) (v ^^^ sender.aTilde i) i
        (everySecond (received ot sender receiver) 0)) +
      elem (computeShareOf receiver.gadget v (p ^^^ b i) i (everySecond sender.pads 0)) =
        elem p * elem v := by
  intro b
  have two : (2 : Quotient) = 0 := CharTwo.two_eq_zero
  let pads := ∑ j ∈ Finset.range gadgetElements,
    elem (everySecond sender.pads 0 (i * gadgetElements + j)) * elem (receiver.gadget j)
  have receivedSum : (∑ j ∈ Finset.range gadgetElements,
      elem (everySecond (received ot sender receiver) 0 (i * gadgetElements + j)) *
        elem (receiver.gadget j)) = pads + elem (sender.aTilde i) * elem (b i) := by
    simp only [b, produceB, elem_dotProduct, Finset.mul_sum, pads, ← Finset.sum_add_distrib]
    apply Finset.sum_congr rfl
    intro j inGadget
    rw [elem_received correct i j (Finset.mem_range.mp inGadget), add_mul]
    congr 1
    split_ifs
    · rfl
    · rw [zero_mul, mul_zero]
  rw [elem_computeShareOf, elem_computeShareOf, receivedSum, elem_xor, elem_xor]
  linear_combination (pads + elem (sender.aTilde i) * elem (b i) + elem (b i) * elem v) * two

end Product

section Powers

theorem powerRounds_succ (input : BitVec 128) (n : ℕ) :
    powerRounds input (n + 1) =
      (mul (mul input input) (powerRounds input n).1,
        Function.update (powerRounds input n).2 (2 * n + 2)
          (mul (mul input input) (powerRounds input n).1)) := by
  rw [powerRounds, List.range_succ, List.foldl_append]
  rfl

theorem elem_powerRounds (input : BitVec 128) (n : ℕ) :
    elem (powerRounds input n).1 = elem input ^ (2 * n + 1) ∧
      ∀ i ≤ n, elem ((powerRounds input n).2 (2 * i)) = elem input ^ (2 * i + 1) := by
  induction n with
  | zero => simp [powerRounds]
  | succ n ih =>
      have next : elem (mul (mul input input) (powerRounds input n).1) =
          elem input ^ (2 * (n + 1) + 1) := by
        rw [elem_mul, elem_mul, ih.1]
        ring
      rw [powerRounds_succ]
      refine ⟨next, ?_⟩
      intro i inside
      rcases Nat.lt_or_ge i (n + 1) with earlier | last
      · simp only
        rw [Function.update_of_ne (by omega), ih.2 i (by omega)]
      · obtain rfl : i = n + 1 := by omega
        simp only
        rw [show 2 * (n + 1) = 2 * n + 2 by ring, Function.update_self, next]
        ring

theorem elem_localPowers (input : BitVec 128) {i : ℕ} (inTable : i < l) :
    elem (localPowers input (2 * i)) = elem input ^ (2 * i + 1) := by
  apply (elem_powerRounds input (l - 1)).2
  omega

theorem replaceOddPowers_apply (share : ℕ → BitVec 128 → BitVec 128) (out : ℕ → BitVec 128)
    {i : ℕ} (inTable : i < l) :
    replaceOddPowers share out (2 * i) = share i (out (2 * i)) := by
  let round := fun (out : ℕ → BitVec 128) (k : ℕ) =>
    Function.update out (2 * k) (share k (out (2 * k)))
  have rounds : ∀ n i, ((List.range n).foldl round out) (2 * i) =
      if i < n then share i (out (2 * i)) else out (2 * i) := by
    intro n
    induction n with
    | zero => simp
    | succ n ih =>
        intro i
        rw [List.range_succ, List.foldl_append, List.foldl_cons, List.foldl_nil]
        simp only [round]
        rcases Nat.lt_trichotomy i n with earlier | rfl | later
        · rw [Function.update_of_ne (by omega), ih, if_pos earlier, if_pos (by omega)]
        · rw [Function.update_self, ih, if_neg (by omega), if_pos (by omega)]
        · rw [Function.update_of_ne (by omega), ih, if_neg (by omega), if_neg (by omega)]
  have all := rounds l i
  rwa [if_pos inTable] at all

theorem squareLoop_of_not_double (out : ℕ → BitVec 128) (lhs rhs k : ℕ) (follows : lhs = rhs * 2 + 1)
    (untouched : ∀ t, k + 1 ≠ (rhs + 1) * 2 ^ (t + 1)) : squareLoop out lhs rhs k = out k := by
  fun_induction squareLoop out lhs rhs with
  | case1 out lhs rhs inTable ih =>
      subst follows
      rw [ih rfl]
      · apply Function.update_of_ne
        intro same
        apply untouched 0
        omega
      · intro t same
        apply untouched (t + 1)
        rw [same, pow_succ 2 (t + 1)]
        ring
  | case2 => rfl

/-- Along the doublings of an index, every entry is the square of the one before. -/
theorem squareLoop_double (out : ℕ → BitVec 128) (lhs rhs k : ℕ) (follows : lhs = rhs * 2 + 1)
    (inTable : 2 * k + 1 < numPowers) (t : ℕ) (double : k + 1 = (rhs + 1) * 2 ^ t) :
    squareLoop out lhs rhs (2 * k + 1) =
      mul (squareLoop out lhs rhs k) (squareLoop out lhs rhs k) := by
  fun_induction squareLoop out lhs rhs generalizing t with
  | case1 out lhs rhs inLoop ih =>
      subst follows
      cases t with
      | zero =>
          obtain rfl : k = rhs := by omega
          -- The first round writes the entry, and later rounds write neither of the two.
          have later : ∀ t, k < (k * 2 + 1 + 1) * 2 ^ (t + 1) - 1 ∧
              k * 2 + 1 < (k * 2 + 1 + 1) * 2 ^ (t + 1) - 1 := by
            intro t
            have := Nat.one_le_two_pow (n := t)
            have : (k * 2 + 1 + 1) * 2 ^ (t + 1) ≥ (k * 2 + 1 + 1) * 2 := by
              apply Nat.mul_le_mul_left
              rw [pow_succ]
              omega
            omega
          rw [squareLoop_of_not_double _ _ _ (2 * k + 1) rfl, squareLoop_of_not_double _ _ _ k rfl,
            mul_comm 2 k, Function.update_self, Function.update_of_ne (by omega)]
          · intro t same
            have := (later t).1
            omega
          · intro t same
            have := (later t).2
            omega
      | succ t =>
          apply ih rfl t
          rw [double, pow_succ]
          ring
  | case2 out lhs rhs done =>
      exfalso
      have : rhs + 1 ≤ k + 1 := by
        rw [double]
        exact Nat.le_mul_of_pos_right _ (by positivity)
      omega

theorem evenRounds_succ (out : ℕ → BitVec 128) (n : ℕ) :
    evenRounds out (n + 1) = computeSquares (evenRounds out n) (2 * n) := by
  rw [evenRounds, List.range_succ, List.foldl_append]
  rfl

theorem exists_odd_part (k : ℕ) : ∃ s t, k + 1 = (2 * s + 1) * 2 ^ t ∧ 2 * s ≤ k := by
  rcases Nat.exists_eq_two_pow_mul_odd (Nat.succ_ne_zero k) with ⟨t, odd, ⟨s, rfl⟩, double⟩
  rw [Nat.succ_eq_add_one, mul_comm] at double
  have bound : 2 * s + 1 ≤ k + 1 := by
    rw [double]
    exact Nat.le_mul_of_pos_right _ (by positivity)
  exact ⟨s, t, double, by omega⟩

theorem odd_part_unique {s n t u : ℕ} (same : (2 * s + 1) * 2 ^ t = (2 * n + 1) * 2 ^ u) :
    s = n := by
  have odd : ∀ a b, Nat.Coprime (2 * a + 1) (2 ^ b) := fun a b =>
    Nat.Coprime.pow_right b (by simp)
  have fromLeft : 2 * s + 1 ∣ 2 * n + 1 :=
    (odd s u).dvd_of_dvd_mul_right (Dvd.intro _ same)
  have fromRight : 2 * n + 1 ∣ 2 * s + 1 :=
    (odd n t).dvd_of_dvd_mul_right (Dvd.intro _ same.symm)
  have := Nat.dvd_antisymm fromLeft fromRight
  omega

theorem evenRounds_even (out : ℕ → BitVec 128) (n i : ℕ) : evenRounds out n (2 * i) = out (2 * i) := by
  induction n with
  | zero => rfl
  | succ n ih =>
      rw [evenRounds_succ, computeSquares, squareLoop_of_not_double _ _ _ _ rfl, ih]
      intro t same
      rw [pow_succ, ← mul_assoc] at same
      omega

/-- Every round completes the doublings of its own odd exponent and keeps the ones before. -/
theorem evenRounds_double (out : ℕ → BitVec 128) (n : ℕ) {k s t : ℕ}
    (double : k + 1 = (2 * s + 1) * 2 ^ t) (reached : s < n) (inTable : 2 * k + 1 < numPowers) :
    evenRounds out n (2 * k + 1) = mul (evenRounds out n k) (evenRounds out n k) := by
  induction n with
  | zero => omega
  | succ n ih =>
      rw [evenRounds_succ, computeSquares]
      rcases Nat.lt_or_ge s n with earlier | now
      · have kept : ∀ j u, j + 1 = (2 * s + 1) * 2 ^ u →
            squareLoop (evenRounds out n) (2 * n * 2 + 1) (2 * n) j = evenRounds out n j := by
          intro j u form
          apply squareLoop_of_not_double _ _ _ _ rfl
          intro v same
          have := odd_part_unique (form.symm.trans same)
          omega
        rw [kept k t double, kept (2 * k + 1) (t + 1), ih earlier]
        rw [pow_succ, ← mul_assoc, ← double]
        ring
      · obtain rfl : s = n := by omega
        exact squareLoop_double _ _ _ _ rfl inTable t double

theorem computeEvenPowers_double (out : ℕ → BitVec 128) {k : ℕ} (inTable : 2 * k + 1 < numPowers) :
    computeEvenPowers out (2 * k + 1) =
      mul (computeEvenPowers out k) (computeEvenPowers out k) := by
  rcases exists_odd_part k with ⟨s, t, double, bound⟩
  apply evenRounds_double out l double _ inTable
  simp only [numPowers, l] at inTable ⊢
  omega

/-- The even powers follow from the odd ones: squaring is additive. -/
theorem elem_computeEvenPowers {ofProver ofVerifier : ℕ → BitVec 128} {h : Quotient}
    (oddPowers : ∀ i < l, elem (ofProver (2 * i)) + elem (ofVerifier (2 * i)) = h ^ (2 * i + 1))
    {k : ℕ} (inTable : k < numPowers) :
    elem (computeEvenPowers ofProver k) + elem (computeEvenPowers ofVerifier k) = h ^ (k + 1) := by
  induction k using Nat.strong_induction_on with
  | _ k ih =>
      rcases Nat.even_or_odd' k with ⟨i, rfl | rfl⟩
      · rw [computeEvenPowers, evenRounds_even, computeEvenPowers, evenRounds_even]
        apply oddPowers
        simp only [numPowers, l] at inTable ⊢
        omega
      · rw [computeEvenPowers_double _ inTable, computeEvenPowers_double _ inTable, elem_mul,
          elem_mul, ← sq, ← sq, ← add_pow_char, ih i (by omega) (by omega), ← pow_mul]
        ring

end Powers

/-- A run that does not abort leaves shares of the powers of the product of the inputs. -/
theorem elem_generateSharesBatched {ot : Ot} (correct : CorrectOt ot) {sender : SenderRandom}
    {receiver : ReceiverRandom} {proverIn verifierIn : BitVec 128}
    {tables : (ℕ → BitVec 128) × (ℕ → BitVec 128)}
    (completed : generateSharesBatched ot sender receiver proverIn verifierIn = some tables)
    {k : ℕ} (inTable : k < numPowers) :
    elem (tables.1 k) + elem (tables.2 k) = (elem proverIn * elem verifierIn) ^ (k + 1) := by
  rw [generateSharesBatched] at completed
  split_ifs at completed with accepted
  obtain rfl := Option.some.inj completed
  dsimp only
  apply elem_computeEvenPowers _ inTable
  intro i inBatch
  rw [replaceOddPowers_apply _ _ inBatch, replaceOddPowers_apply _ _ inBatch, mul_pow,
    ← elem_localPowers proverIn inBatch, ← elem_localPowers verifierIn inBatch]
  apply elem_shares correct

section Check

variable {r t chi chiHat : ℕ → BitVec 128} {beta : ℕ → Bool}

/-- The left side of a row of the check: the entry of the sender and the received entries. -/
def rowTmp (r t chi chiHat : ℕ → BitVec 128) (i : ℕ) : BitVec 128 :=
  (List.range l).foldl (fun tmp j => tmp ^^^
    (mul (chi i) (everySecond t 0 (i * gadgetElements + j)) ^^^
      mul (chiHat i) (everySecond t 1 (i * gadgetElements + j)))) (r (2 * i + 1))

/-- The right side of a row of the check. -/
def rowRhs (r : ℕ → BitVec 128) (beta : ℕ → Bool) (i : ℕ) : BitVec 128 :=
  (List.range l).foldl (fun rhs j =>
    if beta (i * gadgetElements + j) then rhs ^^^ rhs else rhs) (r (2 * i))

theorem checkConsistencyBatched_iff :
    checkConsistencyBatched r t chi chiHat beta = true ↔
      ∀ i < gadgetElements, rowTmp r t chi chiHat i ≠ rowRhs r beta i := by
  have rounds : ∀ n, (List.range n).foldl (fun correct i =>
      correct && rowTmp r t chi chiHat i != rowRhs r beta i) true = true ↔
        ∀ i < n, rowTmp r t chi chiHat i ≠ rowRhs r beta i := by
    intro n
    induction n with
    | zero => simp
    | succ n ih =>
        rw [List.range_succ, List.foldl_append, List.foldl_cons, List.foldl_nil, Bool.and_eq_true,
          ih, bne_iff_ne, Nat.forall_lt_succ_right]
  exact rounds gadgetElements

theorem elem_rowTmp (i : ℕ) :
    elem (rowTmp r t chi chiHat i) = elem (r (2 * i + 1)) + ∑ j ∈ Finset.range l,
      (elem (chi i) * elem (everySecond t 0 (i * gadgetElements + j)) +
        elem (chiHat i) * elem (everySecond t 1 (i * gadgetElements + j))) := by
  rw [rowTmp, elem_foldl_xor]
  simp only [elem_xor, elem_mul]

/-- Without a chosen entry in its row, the right side is the entry of the sender. -/
theorem rowRhs_of_no_choice {i : ℕ} (noChoice : ∀ j < l, beta (i * gadgetElements + j) = false) :
    rowRhs r beta i = r (2 * i) := by
  calc rowRhs r beta i = (List.range l).foldl (fun rhs _ => rhs) (r (2 * i)) := by
        apply List.foldl_ext
        intro rhs j inRow
        simp [noChoice j (List.mem_range.mp inRow)]
    _ = r (2 * i) := List.foldl_fixed _

end Check

section Sample

def directOt : Ot := fun zeros ones choices i => if choices i then ones i else zeros i

def unitSender : SenderRandom where
  aTilde := fun _ => 1
  aHat := fun _ => 0
  pads := fun _ => 7
  chi := fun _ => 1

/-- A receiver that chooses nothing among the entries that the check reads. -/
def lateReceiver : ReceiverRandom where
  gadget := fun j => BitVec.ofNat 128 (2 ^ (j % 128))
  beta := fun k => if k < 1154 then 0 else 0x5a3
  chi := fun _ => 0

theorem choiceBits_lateReceiver {k : ℕ} (early : k < 2 * (1154 * 128)) :
    getBatchedChoiceBits lateReceiver.beta k = false := by
  have block : k / 2 / 128 < 1154 := by omega
  simp [getBatchedChoiceBits, lateReceiver, block]

theorem received_lateReceiver {k : ℕ} (early : k < 2 * (1154 * 128)) :
    received directOt unitSender lateReceiver k = 7 := by
  simp only [received, directOt, choiceBits_lateReceiver early]
  rfl

/-- The batch has an even number of multiplications, so a constant adds up to zero. -/
theorem sum_batch_const (e : Quotient) : ∑ _j ∈ Finset.range l, e = 0 := by
  rw [Finset.sum_const, Finset.card_range, l, show 544 = 272 * 2 by rfl, mul_nsmul, two_nsmul,
    CharTwo.add_self_eq_zero]

theorem elem_unitSender_even (i : ℕ) :
    elem (proveConsistencyBatched unitSender lateReceiver.chi (2 * i)) = 1 := by
  rw [proveConsistencyBatched, if_pos (Nat.mul_mod_right 2 i)]
  simp [elem_mul, unitSender, lateReceiver]

theorem elem_unitSender_odd (i : ℕ) :
    elem (proveConsistencyBatched unitSender lateReceiver.chi (2 * i + 1)) = 0 := by
  rw [proveConsistencyBatched, if_neg (by omega), elem_foldl_xor, elem_zero, zero_add]
  simp only [everySecond, unitSender]
  rw [sum_batch_const]

/-- The pads cancel in every row, and the product of the challenge is left. -/
theorem check_unitSender {r : ℕ → BitVec 128}
    (rows : ∀ i < gadgetElements, elem (r (2 * i + 1)) ≠ elem (r (2 * i))) :
    checkConsistencyBatched r (received directOt unitSender lateReceiver) unitSender.chi
      lateReceiver.chi (getBatchedChoiceBits lateReceiver.beta) = true := by
  rw [checkConsistencyBatched_iff]
  intro i inCheck same
  simp only [gadgetElements] at inCheck
  apply rows i inCheck
  have read : ∀ j ∈ Finset.range l, ∀ parity < 2,
      everySecond (received directOt unitSender lateReceiver) parity (i * gadgetElements + j) =
        7 := by
    intro j inRow parity small
    simp only [Finset.mem_range, l] at inRow
    apply received_lateReceiver
    simp only [gadgetElements]
    omega
  rw [rowRhs_of_no_choice fun j inRow => choiceBits_lateReceiver ?_] at same
  · have sides := congrArg elem same
    rw [elem_rowTmp, Finset.sum_congr rfl fun j inRow => by
      rw [read j inRow 0 (by decide), read j inRow 1 (by decide)], sum_batch_const, add_zero]
      at sides
    exact sides
  · simp only [gadgetElements, l] at inRow ⊢
    omega

end Sample

/-- The entries of the two tables add up to the powers of the product of the inputs. -/
theorem generateSharesBatched_power {ot : Ot} (correct : CorrectOt ot) (sender : SenderRandom)
    (receiver : ReceiverRandom) (proverIn verifierIn : BitVec 128)
    {tables : (ℕ → BitVec 128) × (ℕ → BitVec 128)}
    (completed : generateSharesBatched ot sender receiver proverIn verifierIn = some tables)
    (k : ℕ) (inTable : k < numPowers) :
    tables.1 k ^^^ tables.2 k = pow (mul proverIn verifierIn) (k + 1) := by
  apply elem_injective
  rw [elem_xor, elem_generateSharesBatched correct completed inTable, elem_pow, elem_mul]

theorem generateSharesBatched_power_late :
    ∃ tables, generateSharesBatched directOt unitSender lateReceiver 0x1234 0xabcd = some tables ∧
      tables.1 900 ^^^ tables.2 900 = pow (mul 0x1234 0xabcd) 901 := by
  have completes : (generateSharesBatched directOt unitSender lateReceiver 0x1234 0xabcd).isSome := by
    rw [generateSharesBatched, check_unitSender, if_pos rfl]
    · rfl
    · intro i _ same
      rw [elem_unitSender_even, elem_unitSender_odd] at same
      exact zero_ne_one same
  rcases Option.isSome_iff_exists.mp completes with ⟨tables, completed⟩
  exact ⟨tables, completed, generateSharesBatched_power (fun _ _ _ _ => rfl) _ _ _ _ completed 900
    (by decide)⟩

end PracticalCrypto.F2128Mta
