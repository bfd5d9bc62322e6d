import PracticalCrypto.Mta.Batched

/-!
# The single MtA

This file embeds `F2128_MTA::single_iter` of `surf-impl/src/mta/F2128MtA.inl` for
both parties. The receiver encodes its input into 512 choice bits, 128 for the input
minus a random combination of the gadget entries and 384 for the combination; the
sender offers its input in every transfer. The arguments of a run are the random
values that the parties draw.

Three parts of libraries are parameters: the oblivious transfer, the inner product
of two vectors of blocks and the digest. In an honest run the short messages of the
consistency check arrive as they were sent.
-/

namespace PracticalCrypto.F2128Mta

open BinaryWord Sse Gf128

/-- `batch_size`. -/
def batchSize : ℕ := 512

/-- What the sender of a single multiplication draws. -/
structure SingleSender where
  pads : ℕ → BitVec 128
  alphaHat : BitVec 128
  chi : BitVec 128

/-- What the receiver of a single multiplication draws. -/
structure SingleReceiver where
  gadget : ℕ → BitVec 128
  gamma : ℕ → BitVec 128
  chi : BitVec 128

/-- The functions of libraries that `single_iter` calls. `digest` is `EVP_Digest` with
SHA-256, and `innerProduct` is `vector_inn_prdt_sum_red`. -/
structure SingleLibrary where
  ot : Ot
  digest : List (BitVec 128) → Option (BitVec 128 × BitVec 128)
  innerProduct : (ℕ → BitVec 128) → (ℕ → BitVec 128) → ℕ → BitVec 128

/-- The transfer is correct, the inner product is a sum of products and no digest fails. -/
structure SingleLibrary.Correct (library : SingleLibrary) : Prop where
  ot : CorrectOt library.ot
  innerProduct : ∀ t g n, library.innerProduct t g n =
    (List.range n).foldl (fun sum i => sum ^^^ mul (t i) (g i)) 0#128
  digest : ∀ input, (library.digest input).isSome

section Model

/-- `shift_left_bits`. -/
def shiftLeftBits (bits : ℕ) (a : BitVec 128) : BitVec 128 :=
  if bits ≥ 64 then slliSi128 (slliSi128 a 8) (bits - 64)
  else slliEpi64 a bits ||| srliEpi64 (slliSi128 a 8) (64 - bits)

/-- `generate_g`: the powers of two, and then the entries of the gadget. -/
def generateG (gadget : ℕ → BitVec 128) : ℕ → BitVec 128 := fun i =>
  if i < 128 then (shiftLeftBits 1)^[i] 1#128 else gadget (i - 128)

/-- `encode`, with the random vector `gamma` as an argument. -/
def encode (input : BitVec 128) (gadget gamma : ℕ → BitVec 128) : ℕ → BitVec 128 := fun i =>
  if i = 0 then input ^^^ dotProduct gamma gadget else gamma (i - 1)

/-- `get_choice_bits`, the same double use of every bit as in a batch. -/
def getChoiceBits (omega : ℕ → BitVec 128) : ℕ → Bool :=
  getBatchedChoiceBits omega

/-- The second array of `prepare_pairs`; the first one is the pads. -/
def preparePairs (alpha alphaHat : BitVec 128) (ts : ℕ → BitVec 128) : ℕ → BitVec 128 := fun i =>
  (if i % 2 = 0 then alpha else alphaHat) ^^^ ts i

/-- `prove_consistency`: the hash and the value `u` that the sender writes. -/
def proveConsistency (library : SingleLibrary) (alpha alphaHat : BitVec 128)
    (ts : ℕ → BitVec 128) (chi chiHat : BitVec 128) :
    Option ((BitVec 128 × BitVec 128) × BitVec 128) := do
  let hash ← library.digest ((List.range batchSize).map fun i =>
    mul chi (everySecond ts 0 i) ^^^ mul chiHat (everySecond ts 1 i))
  pure (hash, mul chi alpha ^^^ mul chiHat alphaHat)

/-- `check_consistency`; a digest that fails is not accepted. -/
def checkConsistency (library : SingleLibrary) (hash : BitVec 128 × BitVec 128) (u : BitVec 128)
    (t : ℕ → BitVec 128) (chi chiHat : BitVec 128) (omega : ℕ → Bool) : Bool :=
  let mask := fun choice => if choice then 1#128 else 0#128
  library.digest ((List.range batchSize).map fun i =>
    mul chi (everySecond t 0 i) ^^^ mul chiHat (everySecond t 1 i) ^^^ mul u (mask (omega (2 * i))))
      == some hash

/-- `compute_share`. -/
def computeShare (library : SingleLibrary) (upper : ℕ) (t g : ℕ → BitVec 128) : BitVec 128 :=
  library.innerProduct t g upper

/-- What the receiver gets from the transfers. -/
def singleReceived (library : SingleLibrary) (sender : SingleSender) (senderIn : BitVec 128)
    (choices : ℕ → Bool) : ℕ → BitVec 128 :=
  library.ot sender.pads (preparePairs senderIn sender.alphaHat sender.pads) choices

/-- `single_iter` of the sender and the receiver; nothing if one of them returns false. -/
def singleIter (library : SingleLibrary) (sender : SingleSender) (receiver : SingleReceiver)
    (senderIn receiverIn : BitVec 128) : Option (BitVec 128 × BitVec 128) := do
  let g := generateG receiver.gadget
  let omega := encode receiverIn receiver.gadget receiver.gamma
  let choices := getChoiceBits omega
  let t := singleReceived library sender senderIn choices
  let (hash, u) ← proveConsistency library senderIn sender.alphaHat sender.pads sender.chi
    receiver.chi
  if checkConsistency library hash u t sender.chi receiver.chi choices then
    pure (computeShare library batchSize (everySecond sender.pads 0) g,
      computeShare library batchSize (everySecond t 0) g)
  else none

end Model

section Encoding

theorem shiftLeftBits_eq (a : BitVec 128) {bits : ℕ} (small : bits < 64) :
    shiftLeftBits bits a = a <<< bits := by
  apply BitVec.eq_of_getLsbD_eq
  intro i inRegister
  rw [shiftLeftBits, if_neg (by omega)]
  simp only [srliEpi64, slliEpi64, half, slliSi128, BitVec.getLsbD_or, BitVec.getLsbD_append,
    BitVec.getLsbD_ushiftRight, BitVec.getLsbD_shiftLeft, BitVec.getLsbD_extractLsb']
  by_cases low : i < 64
  · have early : 64 - bits + i < 128 := by omega
    have inside : i - bits < 64 := by omega
    by_cases moved : i < bits
    · have below : ¬64 ≤ 64 - bits + i := by omega
      simp [low, moved, early, below]
    · simp [low, moved, inside, inRegister]
      omega
  · by_cases near : i - 64 < bits
    · have index : 64 - bits + (i - 64) = i - bits := by omega
      have inside : i - bits < 64 := by omega
      have after : ¬i < bits := by omega
      simp [low, near, index, inside, inRegister, after]
      omega
    · have index : 64 + (i - 64 - bits) = i - bits := by omega
      have beyond : ¬64 - bits + (i - 64) < 64 := by omega
      have inside : i - 64 - bits < 64 := by omega
      have after : ¬i < bits := by omega
      simp [low, near, index, inside, inRegister, after, beyond]
      omega

theorem iterate_shiftLeftBits (i : ℕ) : (shiftLeftBits 1)^[i] 1#128 = 1#128 <<< i := by
  induction i with
  | zero => simp
  | succ i ih =>
      rw [Function.iterate_succ_apply', ih, shiftLeftBits_eq _ (by decide), ← BitVec.shiftLeft_add]

/-- The first entries of `generate_g` are the powers of the root. -/
theorem elem_generateG_of_lt (gadget : ℕ → BitVec 128) {i : ℕ} (inBlock : i < 128) :
    elem (generateG gadget i) = AdjoinRoot.root modulus ^ i := by
  have shifted := value_shiftLeft (AdjoinRoot.root modulus) 1#128 inBlock.le
  have nothing : 1#128 >>> (128 - i) = 0#128 := by
    apply BitVec.eq_of_toNat_eq
    rw [BitVec.toNat_ushiftRight, Nat.shiftRight_eq_div_pow]
    apply Nat.div_eq_of_lt
    exact Nat.one_lt_two_pow (by omega)
  rw [nothing, value_zero, mul_zero, add_zero, value_one _ (by decide), mul_one] at shifted
  rw [generateG, if_pos inBlock, iterate_shiftLeftBits, elem, shifted]

theorem generateG_add (gadget : ℕ → BitVec 128) (j : ℕ) : generateG gadget (128 + j) = gadget j := by
  rw [generateG, if_neg (by omega), Nat.add_sub_cancel_left]

theorem encode_succ (input : BitVec 128) (gadget gamma : ℕ → BitVec 128) (k : ℕ) :
    encode input gadget gamma (k + 1) = gamma k := rfl

/-- The choice bits select entries that add up to the encoded input. -/
theorem sum_choices (input : BitVec 128) (gadget gamma : ℕ → BitVec 128) :
    ∑ i ∈ Finset.range batchSize, (if getChoiceBits (encode input gadget gamma) (2 * i) then
      elem (generateG gadget i) else 0) = elem input := by
  have choice : ∀ i, getChoiceBits (encode input gadget gamma) (2 * i) =
      (encode input gadget gamma (i / 128)).getLsbD (i % 128) := by
    intro i
    rw [getChoiceBits, getBatchedChoiceBits, Nat.mul_div_cancel_left i (by decide)]
  have ofInput : ∑ i ∈ Finset.range 128, (if getChoiceBits (encode input gadget gamma) (2 * i) then
      elem (generateG gadget i) else 0) = elem (input ^^^ dotProduct gamma gadget) := by
    rw [elem, value]
    apply Finset.sum_congr rfl
    intro i inSum
    have inBlock := Finset.mem_range.mp inSum
    rw [choice, elem_generateG_of_lt gadget inBlock, Nat.div_eq_of_lt inBlock,
      Nat.mod_eq_of_lt inBlock, encode, if_pos rfl]
  have ofGamma : ∑ j ∈ Finset.range gadgetElements,
      (if getChoiceBits (encode input gadget gamma) (2 * (128 + j)) then
        elem (generateG gadget (128 + j)) else 0) = elem (dotProduct gamma gadget) := by
    rw [elem_dotProduct]
    apply Finset.sum_congr rfl
    intro j _
    have block : (128 + j) / 128 = j / 128 + 1 := by omega
    have bit : (128 + j) % 128 = j % 128 := by omega
    rw [choice, generateG_add, block, bit, encode_succ]
  have two : (2 : Quotient) = 0 := CharTwo.two_eq_zero
  rw [show batchSize = 128 + gadgetElements by rfl, Finset.sum_range_add, ofInput, ofGamma,
    elem_xor]
  linear_combination elem (dotProduct gamma gadget) * two

end Encoding

section Run

variable {library : SingleLibrary}

/-- A chosen entry is the pad with the entry of the sender added. -/
theorem elem_singleReceived (correct : library.Correct) (sender : SingleSender)
    (senderIn : BitVec 128) (choices : ℕ → Bool) (i : ℕ) :
    elem (everySecond (singleReceived library sender senderIn choices) 0 i) =
        elem (everySecond sender.pads 0 i) + (if choices (2 * i) then elem senderIn else 0) ∧
      elem (everySecond (singleReceived library sender senderIn choices) 1 i) =
        elem (everySecond sender.pads 1 i) +
          (if choices (2 * i + 1) then elem sender.alphaHat else 0) := by
  have even : 2 * i % 2 = 0 := Nat.mul_mod_right 2 i
  have odd : ¬(2 * i + 1) % 2 = 0 := by omega
  simp only [everySecond, singleReceived, correct.ot _ _ _ _, preparePairs, Nat.add_zero, even, odd,
    if_true, if_false]
  constructor
  · split_ifs <;> simp [add_comm]
  · split_ifs <;> simp [add_comm]

theorem getChoiceBits_twice (omega : ℕ → BitVec 128) (i : ℕ) :
    getChoiceBits omega (2 * i + 1) = getChoiceBits omega (2 * i) := by
  have half : (2 * i + 1) / 2 = 2 * i / 2 := by omega
  rw [getChoiceBits, getBatchedChoiceBits, getBatchedChoiceBits, half]

/-- Under the challenges, the received entries and `u` at the chosen ones give the pads. -/
theorem check_entry (correct : library.Correct) (sender : SingleSender) (senderIn : BitVec 128)
    {choices : ℕ → Bool} (twice : ∀ i, choices (2 * i + 1) = choices (2 * i))
    (chi chiHat : BitVec 128) (i : ℕ) :
    let t := singleReceived library sender senderIn choices
    let u := mul chi senderIn ^^^ mul chiHat sender.alphaHat
    mul chi (everySecond t 0 i) ^^^ mul chiHat (everySecond t 1 i) ^^^
        mul u (if choices (2 * i) then 1#128 else 0#128) =
      mul chi (everySecond sender.pads 0 i) ^^^ mul chiHat (everySecond sender.pads 1 i) := by
  intro t u
  have two : (2 : Quotient) = 0 := CharTwo.two_eq_zero
  rcases elem_singleReceived correct sender senderIn choices i with ⟨first, second⟩
  apply elem_injective
  simp only [t, u, elem_xor, elem_mul, first, second, twice]
  split_ifs
  · rw [elem_one]
    linear_combination (elem chi * elem senderIn + elem chiHat * elem sender.alphaHat) * two
  · rw [elem_zero]
    ring

theorem elem_computeShare (correct : library.Correct) (t g : ℕ → BitVec 128) (upper : ℕ) :
    elem (computeShare library upper t g) =
      ∑ i ∈ Finset.range upper, elem (t i) * elem (g i) := by
  rw [computeShare, correct.innerProduct, elem_foldl_xor, elem_zero, zero_add]
  simp only [elem_mul]

/-- The check of the receiver accepts what an honest sender writes. -/
theorem checkConsistency_honest (correct : library.Correct) (sender : SingleSender)
    (senderIn : BitVec 128) (omega : ℕ → BitVec 128) (chiHat : BitVec 128) :
    ∃ hash u, proveConsistency library senderIn sender.alphaHat sender.pads sender.chi chiHat =
        some (hash, u) ∧
      checkConsistency library hash u (singleReceived library sender senderIn (getChoiceBits omega))
        sender.chi chiHat (getChoiceBits omega) = true := by
  rcases Option.isSome_iff_exists.mp (correct.digest ((List.range batchSize).map fun i =>
    mul sender.chi (everySecond sender.pads 0 i) ^^^
      mul chiHat (everySecond sender.pads 1 i))) with ⟨hash, digested⟩
  refine ⟨hash, mul sender.chi senderIn ^^^ mul chiHat sender.alphaHat, ?_, ?_⟩
  · rw [proveConsistency, digested]
    rfl
  · simp only [checkConsistency, check_entry correct sender senderIn (getChoiceBits_twice omega),
      digested, beq_self_eq_true]

/-- The two inner products differ by the product of the inputs. -/
theorem elem_singleShares (correct : library.Correct) (sender : SingleSender)
    (receiver : SingleReceiver) (senderIn receiverIn : BitVec 128) :
    let g := generateG receiver.gadget
    let choices := getChoiceBits (encode receiverIn receiver.gadget receiver.gamma)
    elem (computeShare library batchSize (everySecond sender.pads 0) g) +
      elem (computeShare library batchSize
        (everySecond (singleReceived library sender senderIn choices) 0) g) =
          elem senderIn * elem receiverIn := by
  intro g choices
  let pads := ∑ i ∈ Finset.range batchSize, elem (everySecond sender.pads 0 i) * elem (g i)
  have received : elem (computeShare library batchSize
      (everySecond (singleReceived library sender senderIn choices) 0) g) =
        pads + elem senderIn * elem receiverIn := by
    rw [elem_computeShare correct, ← sum_choices receiverIn receiver.gadget receiver.gamma,
      Finset.mul_sum, ← Finset.sum_add_distrib]
    apply Finset.sum_congr rfl
    intro i _
    rw [(elem_singleReceived correct sender senderIn choices i).1, add_mul]
    congr 1
    simp only [choices, g]
    split_ifs
    · rfl
    · rw [zero_mul, mul_zero]
  have two : (2 : Quotient) = 0 := CharTwo.two_eq_zero
  rw [received, elem_computeShare correct]
  linear_combination pads * two

theorem elem_singleIter (correct : library.Correct) (sender : SingleSender)
    (receiver : SingleReceiver) (senderIn receiverIn : BitVec 128) :
    ∃ senderOut receiverOut,
      singleIter library sender receiver senderIn receiverIn = some (senderOut, receiverOut) ∧
        elem senderOut + elem receiverOut = elem senderIn * elem receiverIn := by
  let g := generateG receiver.gadget
  let omega := encode receiverIn receiver.gadget receiver.gamma
  let t := singleReceived library sender senderIn (getChoiceBits omega)
  rcases checkConsistency_honest correct sender senderIn omega receiver.chi with
    ⟨hash, u, proved, accepted⟩
  have completes : singleIter library sender receiver senderIn receiverIn =
      some (computeShare library batchSize (everySecond sender.pads 0) g,
        computeShare library batchSize (everySecond t 0) g) := by
    simp only [singleIter, proved, Option.bind_eq_bind, Option.bind_some]
    exact if_pos accepted
  exact ⟨_, _, completes, elem_singleShares correct sender receiver senderIn receiverIn⟩

end Run

/-- The check of an honest run accepts, and the outputs add up to the product of the inputs. -/
theorem singleIter_product {library : SingleLibrary} (correct : library.Correct)
    (sender : SingleSender) (receiver : SingleReceiver) (senderIn receiverIn : BitVec 128) :
    ∃ senderOut receiverOut,
      singleIter library sender receiver senderIn receiverIn = some (senderOut, receiverOut) ∧
        senderOut ^^^ receiverOut = mul senderIn receiverIn := by
  rcases elem_singleIter correct sender receiver senderIn receiverIn with
    ⟨senderOut, receiverOut, completes, product⟩
  refine ⟨senderOut, receiverOut, completes, ?_⟩
  apply elem_injective
  rw [elem_xor, elem_mul, product]

/-- Functions that behave like the ones of the libraries, with a hash that only adds up. -/
def directLibrary : SingleLibrary where
  ot := directOt
  digest := fun input => some (input.foldl (· ^^^ ·) 0#128, input.foldl (· + ·) 0#128)
  innerProduct := fun t g n => (List.range n).foldl (fun sum i => sum ^^^ mul (t i) (g i)) 0#128

theorem directLibrary_correct : directLibrary.Correct where
  ot := fun _ _ _ _ => rfl
  innerProduct := fun _ _ _ => rfl
  digest := fun _ => rfl

def sampleSingleSender : SingleSender where
  pads := fun i => BitVec.ofNat 128 (i * i + 1)
  alphaHat := 0x77
  chi := 0x1001

def sampleSingleReceiver : SingleReceiver where
  gadget := fun j => BitVec.ofNat 128 (3 ^ j)
  gamma := fun i => BitVec.ofNat 128 (0x5a5a * (i + 1))
  chi := 0x2002

theorem singleIter_product_sample :
    ∃ senderOut receiverOut,
      singleIter directLibrary sampleSingleSender sampleSingleReceiver 0x1234 0xabcd =
          some (senderOut, receiverOut) ∧
        senderOut ^^^ receiverOut = mul 0x1234 0xabcd :=
  singleIter_product directLibrary_correct _ _ _ _

end PracticalCrypto.F2128Mta
