import PracticalCrypto.Library.BigEndian
import PracticalCrypto.Library.Chunks
import PracticalCrypto.Mta.TAndV

/-!
# The MtA over the integers modulo q

This file embeds `MtA::play_sender` and `MtA::play_receiver` of
`surf-impl/src/mta/MtA.cpp` with their in-place routines. The sender offers
`delta[i] - a` and `delta[i] + a` for every entry of a random vector, the receiver
chooses by its bits `t` and sends the vector `v` and a mask in clear, and both take
inner products. A number travels as a padded big-endian string that is cut into
blocks of the transfer, with its choice bit repeated for every block.

The arguments of a run are the random values of both parties. The oblivious transfer
of the library is a parameter. Runs in which an allocation fails or a message is lost
are not modelled; a message whose length is no `int` ends the run.
-/

namespace PracticalCrypto.Mta

open Chunks

abbrev Bytes : Type := List UInt8

/-- The blocks of the sender and the choice bits, to the blocks of the receiver. -/
abbrev BlockOt : Type := List Bytes → List Bytes → List Bool → List Bytes

/-- The receiver gets the block that it chooses. -/
def CorrectBlockOt (ot : BlockOt) : Prop :=
  ∀ zeros ones choices, ot zeros ones choices = choose choices zeros ones

/-- The size of `emp::block`. -/
def blockSize : ℕ := 16

/-- `BN_num_bytes`. -/
def numBytes (q : ℕ) : ℕ := (numBits q + 7) / 8

/-- `MtA::round_up_to_block`. -/
def roundUpToBlock (size : ℕ) : ℕ := (size + blockSize - 1) / blockSize * blockSize

/-- The last index of the vectors of a run, which have `BN_num_bits(q) + k` entries. -/
def lastEntry (q : ℕ) : ℕ := numBits q + k - 1

/-- `size_of_each`, the length of a number in a message. -/
def sizeOfEach (q : ℕ) : ℕ := roundUpToBlock (numBytes q)

/-- What the sender draws, by `BN_rand_range_ex`. -/
structure SenderDraws (q : ℕ) where
  delta : Fin (lastEntry q + 1) → ℕ
  delta_lt : ∀ i, delta i < q

/-- What the receiver draws. -/
structure ReceiverDraws (q : ℕ) where
  samples : Fin (lastEntry q + 1) → ℕ
  samples_lt : ∀ i, samples i < q
  rands : Fin (lastEntry q + 1) → ℕ
  pos : ℕ
  sigma : ℕ
  sigma_lt : sigma < q

section Model

/-- `BN_bn2bin_padded`. -/
def bn2binPadded (length number : ℕ) : Option Bytes :=
  if number < 256 ^ length then some (BigEndian.ofNat length number) else none

/-- `BN_bin2bn`. -/
def bin2bn (bytes : Bytes) : ℕ := BigEndian.toNat bytes

def bnModMul (a b m : ℕ) : ℕ := a * b % m

/-- A length that is passed to the channel as an `int`. -/
def asInt (length : ℕ) : Option ℕ := if length < 2 ^ 31 then some length else none

/-- `expand_t_to_ot_width_inplace`. -/
def expandTToOtWidth (otsPerBignum : ℕ) (t : List Bool) : List Bool :=
  t.flatMap (List.replicate otsPerBignum)

/-- `serialise_bignums_inplace`. -/
def serialiseBignums (numbers : List ℕ) (size : ℕ) : Option Bytes :=
  numbers.foldlM (fun out number => do pure (out ++ (← bn2binPadded size number))) []

/-- `produce_sender_pairs_inplace`: the packs of the sums and of the differences. -/
def produceSenderPairs (delta : List ℕ) (a size q : ℕ) : Option (Bytes × Bytes) :=
  delta.foldlM (fun (addPack, subPack) entry => do
    let add ← bn2binPadded size (bnModAdd entry a q)
    let sub ← bn2binPadded size (bnModSub entry a q)
    pure (addPack ++ add, subPack ++ sub)) ([], [])

/-- A pack as the blocks of the transfer. -/
def blocksOf (pack : Bytes) : List Bytes := chunks blockSize (pack.length / blockSize) pack

/-- The loop of `deserialise_inner_product_internal`. -/
def innerProductLoop (size q : ℕ) : ℕ → Bytes → List ℕ → ℕ
  | out, _, [] => out
  | out, curr, number :: rhs =>
      innerProductLoop size q (bnModAdd out (bnModMul number (bin2bn (curr.take size)) q) q)
        (curr.drop size) rhs

/-- `deserialise_inner_product`. -/
def deserialiseInnerProduct (lhs : Bytes) (rhs : List ℕ) (size q : ℕ) : Option ℕ :=
  if size = 0 ∨ rhs = [] ∨ lhs = [] ∨ lhs.length ≠ size * rhs.length then none
  else some (innerProductLoop size q 0 lhs rhs)

/-- `receiver_ot`, which refuses an empty transfer. -/
def receiverOt (ot : BlockOt) (zeros ones : List Bytes) (choices : List Bool) :
    Option (List Bytes) :=
  if choices = [] then none else some (ot zeros ones choices)

/-- `play_sender` and `play_receiver`: the outputs of the sender and of the receiver. -/
def playMta (ot : BlockOt) (a b q : ℕ) (sender : SenderDraws q) (receiver : ReceiverDraws q) :
    Option (ℕ × ℕ) := do
  let size := sizeOfEach q
  let arrays := generateTAndVInplace b q receiver.samples receiver.rands receiver.pos
  let choices := expandTToOtWidth (size / blockSize) (List.ofFn arrays.t)
  let vals ← serialiseBignums (List.ofFn arrays.v) size
  let sigma ← bn2binPadded size receiver.sigma
  let (addPack, subPack) ← produceSenderPairs (List.ofFn sender.delta) a size q
  let z ← receiverOt ot (blocksOf subPack) (blocksOf addPack) choices
  -- `v` and `sigma` in clear, to the sender.
  let _ ← asInt vals.length
  let _ ← asInt sigma.length
  let ofReceiver ← deserialiseInnerProduct z.flatten (List.ofFn arrays.v) size q
  let ofSender ← deserialiseInnerProduct vals (List.ofFn sender.delta) size q
  pure (bnModSub (bnModSub 0 ofSender q) (bin2bn sigma) q, bnModAdd ofReceiver receiver.sigma q)

end Model

section Serialised

variable {size : ℕ}

/-- The padded numbers of a list, one after the other. -/
def padded (size : ℕ) (numbers : List ℕ) : Bytes := numbers.flatMap (BigEndian.ofNat size)

theorem length_padded (size : ℕ) (numbers : List ℕ) :
    (padded size numbers).length = size * numbers.length := by
  simp [padded, mul_comm]

theorem serialiseBignums_eq {numbers : List ℕ} (fit : ∀ number ∈ numbers, number < 256 ^ size) :
    serialiseBignums numbers size = some (padded size numbers) := by
  have loop : ∀ out, numbers.foldlM (fun out number => do
      pure (out ++ (← bn2binPadded size number))) out = some (out ++ padded size numbers) := by
    induction numbers with
    | nil => simp [padded]
    | cons number later ih =>
        intro out
        have first : bn2binPadded size number = some (BigEndian.ofNat size number) :=
          if_pos (fit number List.mem_cons_self)
        rw [List.foldlM_cons, first]
        simp only [Option.bind_eq_bind, Option.pure_def, Option.bind_some]
        simp only [Option.bind_eq_bind, Option.pure_def] at ih
        rw [ih fun other inLater => fit other (List.mem_cons_of_mem _ inLater)]
        simp [padded]
  rw [serialiseBignums, loop, List.nil_append]

theorem bnModAdd_lt (a b q : ℕ) [NeZero q] : bnModAdd a b q < q :=
  Nat.mod_lt _ (Nat.pos_of_neZero q)

theorem produceSenderPairs_eq {a q : ℕ} [NeZero q] (fits : q ≤ 256 ^ size) (delta : List ℕ) :
    produceSenderPairs delta a size q = some (padded size (delta.map (bnModAdd · a q)),
      padded size (delta.map (bnModSub · a q))) := by
  have addFits : ∀ entry, bn2binPadded size (bnModAdd entry a q) =
      some (BigEndian.ofNat size (bnModAdd entry a q)) := fun entry =>
    if_pos ((bnModAdd_lt entry a q).trans_le fits)
  have subFits : ∀ entry, bn2binPadded size (bnModSub entry a q) =
      some (BigEndian.ofNat size (bnModSub entry a q)) := fun entry =>
    if_pos ((bnModSub_lt entry a q).trans_le fits)
  have loop : ∀ packs, delta.foldlM (fun (addPack, subPack) entry => do
      let add ← bn2binPadded size (bnModAdd entry a q)
      let sub ← bn2binPadded size (bnModSub entry a q)
      pure (addPack ++ add, subPack ++ sub)) packs =
        some (packs.1 ++ padded size (delta.map (bnModAdd · a q)),
          packs.2 ++ padded size (delta.map (bnModSub · a q))) := by
    induction delta with
    | nil => simp [padded]
    | cons entry later ih =>
        intro packs
        simp only [Option.bind_eq_bind, Option.pure_def, addFits, subFits, Option.bind_some] at ih ⊢
        rw [List.foldlM_cons]
        simp only [Option.bind_eq_bind, Option.bind_some]
        rw [ih]
        simp [padded]
  rw [produceSenderPairs, loop, List.nil_append, List.nil_append]

/-- Every number is chosen as a whole, since its choice is repeated for all of its blocks. -/
theorem flatten_choose (width : ℕ) (rows : List (Bool × ℕ × ℕ)) :
    (choose (expandTToOtWidth width (rows.map (·.1)))
      (chunks blockSize (width * rows.length) (padded (blockSize * width) (rows.map (·.2.1))))
      (chunks blockSize (width * rows.length) (padded (blockSize * width) (rows.map (·.2.2))))
    ).flatten = padded (blockSize * width) (rows.map fun row => if row.1 then row.2.2 else row.2.1) := by
  induction rows with
  | nil => simp [padded, choose, expandTToOtWidth]
  | cons row later ih =>
      have exact : ∀ number,
          (BigEndian.ofNat (blockSize * width) number).length = blockSize * width := by
        simp
      have count : width * (row :: later).length = width + width * later.length := by
        rw [List.length_cons, Nat.mul_succ, Nat.add_comm]
      have oneNumber : ∀ number, (chunks blockSize width
          (BigEndian.ofNat (blockSize * width) number)).flatten =
            BigEndian.ofNat (blockSize * width) number := fun number => flatten_chunks (exact number)
      simp only [padded, expandTToOtWidth, List.map_cons, List.flatMap_cons, count] at ih ⊢
      rw [chunks_append (exact _), chunks_append (exact _), choose_append (by simp) (by simp),
        List.flatten_append, ih]
      congr 1
      rw [choose_replicate row.1 (length_chunks _ _ _) (length_chunks _ _ _)]
      split_ifs <;> exact oneNumber _

theorem natCast_innerProductLoop (size q out : ℕ) (rows : List (ℕ × ℕ))
    (fit : ∀ row ∈ rows, row.2 < 256 ^ size) :
    ((innerProductLoop size q out (padded size (rows.map (·.2))) (rows.map (·.1)) : ℕ) : ZMod q) =
      out + (rows.map fun row => (row.1 * row.2 : ZMod q)).sum := by
  induction rows generalizing out with
  | nil => simp [innerProductLoop]
  | cons row later ih =>
      have taken : (padded size ((row :: later).map (·.2))).take size =
          BigEndian.ofNat size row.2 := by
        simp [padded]
      have dropped : (padded size ((row :: later).map (·.2))).drop size =
          padded size (later.map (·.2)) := by
        simp [padded]
      have number : bin2bn (BigEndian.ofNat size row.2) = row.2 := by
        rw [bin2bn, BigEndian.toNat_ofNat, Nat.mod_eq_of_lt (fit row List.mem_cons_self)]
      have ofRows : (row :: later).map (·.1) = row.1 :: later.map (·.1) := rfl
      rw [ofRows, innerProductLoop, taken, dropped,
        ih _ fun other inLater => fit other (List.mem_cons_of_mem _ inLater), number]
      simp [bnModMul, add_assoc]

end Serialised

section Run

variable {q : ℕ}

/-- The number of blocks of the transfer that hold one number. -/
def blocksPerNumber (q : ℕ) : ℕ := (numBytes q + blockSize - 1) / blockSize

theorem sizeOfEach_eq (q : ℕ) : sizeOfEach q = blockSize * blocksPerNumber q :=
  Nat.mul_comm _ _

theorem le_pow_numBytes (q : ℕ) : q ≤ 256 ^ numBytes q := by
  have bits : numBits q ≤ 8 * numBytes q := by
    simp only [numBytes]
    omega
  calc q ≤ 2 ^ numBits q := (Nat.lt_size_self q).le
    _ ≤ 2 ^ (8 * numBytes q) := Nat.pow_le_pow_right (by decide) bits
    _ = 256 ^ numBytes q := pow_mul 2 8 _

theorem le_pow_sizeOfEach (q : ℕ) : q ≤ 256 ^ sizeOfEach q := by
  apply (le_pow_numBytes q).trans
  apply Nat.pow_le_pow_right (by decide)
  simp only [sizeOfEach, roundUpToBlock, blockSize]
  omega

theorem blocksPerNumber_pos (positive : 0 < q) : 0 < blocksPerNumber q := by
  have bits : 0 < numBits q := Nat.size_pos.mpr positive
  simp only [blocksPerNumber, numBytes, blockSize]
  omega

theorem blocksOf_padded {count : ℕ} (numbers : Fin count → ℕ) :
    blocksOf (padded (sizeOfEach q) (List.ofFn numbers)) =
      chunks blockSize (blocksPerNumber q * count)
        (padded (blockSize * blocksPerNumber q) (List.ofFn numbers)) := by
  rw [blocksOf, length_padded, List.length_ofFn, sizeOfEach_eq, Nat.mul_assoc,
    Nat.mul_div_cancel_left _ (by decide)]

theorem deserialiseInnerProduct_padded (positive : 0 < q) {count : ℕ} (nonempty : 0 < count)
    (numbers entries : Fin count → ℕ) :
    deserialiseInnerProduct (padded (sizeOfEach q) (List.ofFn entries)) (List.ofFn numbers)
        (sizeOfEach q) q =
      some (innerProductLoop (sizeOfEach q) q 0 (padded (sizeOfEach q) (List.ofFn entries))
        (List.ofFn numbers)) := by
  have wide : 0 < sizeOfEach q := by
    rw [sizeOfEach_eq]
    exact Nat.mul_pos (by decide) (blocksPerNumber_pos positive)
  have length := length_padded (sizeOfEach q) (List.ofFn entries)
  rw [List.length_ofFn] at length
  have notEmpty : padded (sizeOfEach q) (List.ofFn entries) ≠ [] := by
    apply List.ne_nil_of_length_pos
    rw [length]
    exact Nat.mul_pos wide nonempty
  have someNumber : List.ofFn numbers ≠ [] := by
    apply List.ne_nil_of_length_pos
    rwa [List.length_ofFn]
  rw [deserialiseInnerProduct, if_neg]
  simp [wide.ne', notEmpty, length, someNumber]

theorem natCast_innerProduct {count : ℕ} (numbers entries : Fin count → ℕ)
    (small : ∀ i, entries i < q) :
    ((innerProductLoop (sizeOfEach q) q 0 (padded (sizeOfEach q) (List.ofFn entries))
      (List.ofFn numbers) : ℕ) : ZMod q) = ∑ i, (numbers i * entries i : ZMod q) := by
  have rows := natCast_innerProductLoop (sizeOfEach q) q 0
    (List.ofFn fun i => (numbers i, entries i)) (by
      intro row inRows
      rcases List.mem_ofFn.mp inRows with ⟨i, rfl⟩
      exact (small i).trans_le (le_pow_sizeOfEach q))
  simpa [List.map_ofFn, Function.comp_def, List.sum_ofFn] using rows

/-- What the receiver puts together from the blocks of the transfer. -/
theorem received_eq {ot : BlockOt} (correct : CorrectBlockOt ot) {count : ℕ}
    (t : Fin count → Bool) (sub add : Fin count → ℕ) :
    (ot (blocksOf (padded (sizeOfEach q) (List.ofFn sub)))
      (blocksOf (padded (sizeOfEach q) (List.ofFn add)))
      (expandTToOtWidth (sizeOfEach q / blockSize) (List.ofFn t))).flatten =
        padded (sizeOfEach q) (List.ofFn fun i => if t i then add i else sub i) := by
  have width : sizeOfEach q / blockSize = blocksPerNumber q := by
    rw [sizeOfEach_eq, Nat.mul_div_cancel_left _ (by decide)]
  have chosen := flatten_choose (blocksPerNumber q)
    (List.ofFn fun i => (t i, sub i, add i))
  simp only [List.map_ofFn, Function.comp_def, List.length_ofFn] at chosen
  rw [correct, blocksOf_padded, blocksOf_padded, width, chosen, sizeOfEach_eq]

/-- The length of the vector that the receiver sends in clear. -/
def messageLength (q : ℕ) : ℕ := sizeOfEach q * (lastEntry q + 1)

theorem serialiseBignums_v [NeZero q] (b : ℕ) (receiver : ReceiverDraws q) :
    let arrays := generateTAndVInplace b q receiver.samples receiver.rands receiver.pos
    serialiseBignums (List.ofFn arrays.v) (sizeOfEach q) =
      some (padded (sizeOfEach q) (List.ofFn arrays.v)) := by
  intro arrays
  apply serialiseBignums_eq
  intro number inVector
  rcases List.mem_ofFn.mp inVector with ⟨i, rfl⟩
  exact (generated_lt b _ _ receiver.samples_lt i).trans_le (le_pow_sizeOfEach q)

/-- The mask of the receiver as it travels, and as the sender reads it. -/
theorem bn2binPadded_sigma (receiver : ReceiverDraws q) :
    bn2binPadded (sizeOfEach q) receiver.sigma =
        some (BigEndian.ofNat (sizeOfEach q) receiver.sigma) ∧
      bin2bn (BigEndian.ofNat (sizeOfEach q) receiver.sigma) = receiver.sigma := by
  have fits := receiver.sigma_lt.trans_le (le_pow_sizeOfEach q)
  constructor
  · exact if_pos fits
  · rw [bin2bn, BigEndian.toNat_ofNat, Nat.mod_eq_of_lt fits]

theorem produceSenderPairs_delta [NeZero q] (a : ℕ) (sender : SenderDraws q) :
    produceSenderPairs (List.ofFn sender.delta) a (sizeOfEach q) q =
      some (padded (sizeOfEach q) (List.ofFn fun i => bnModAdd (sender.delta i) a q),
        padded (sizeOfEach q) (List.ofFn fun i => bnModSub (sender.delta i) a q)) := by
  have pairs := produceSenderPairs_eq (a := a) (le_pow_sizeOfEach q) (List.ofFn sender.delta)
  simpa only [List.map_ofFn, Function.comp_def] using pairs

theorem length_expandTToOtWidth {count : ℕ} (t : Fin count → Bool) :
    (expandTToOtWidth (sizeOfEach q / blockSize) (List.ofFn t)).length =
      blocksPerNumber q * count := by
  have width : sizeOfEach q / blockSize = blocksPerNumber q := by
    rw [sizeOfEach_eq, Nat.mul_div_cancel_left _ (by decide)]
  rw [width, expandTToOtWidth]
  simp [Function.comp_def, Nat.mul_comm]

theorem expandTToOtWidth_ne_nil (positive : 0 < q) {count : ℕ} (nonempty : 0 < count)
    (t : Fin count → Bool) :
    expandTToOtWidth (sizeOfEach q / blockSize) (List.ofFn t) ≠ [] := by
  apply List.ne_nil_of_length_pos
  rw [length_expandTToOtWidth]
  exact Nat.mul_pos (blocksPerNumber_pos positive) nonempty

theorem length_padded_vector (v : Fin (lastEntry q + 1) → ℕ) :
    (padded (sizeOfEach q) (List.ofFn v)).length = messageLength q := by
  rw [length_padded, List.length_ofFn, messageLength]

theorem sizeOfEach_le_messageLength (q : ℕ) : sizeOfEach q ≤ messageLength q :=
  Nat.le_mul_of_pos_right _ (Nat.succ_pos _)

/-- The run ends early only if the vector of the receiver is too long for one message. -/
theorem playMta_eq {ot : BlockOt} (correct : CorrectBlockOt ot) (positive : 0 < q) (a b : ℕ)
    (sender : SenderDraws q) (receiver : ReceiverDraws q) :
    let size := sizeOfEach q
    let arrays := generateTAndVInplace b q receiver.samples receiver.rands receiver.pos
    let z := List.ofFn fun i =>
      if arrays.t i then bnModAdd (sender.delta i) a q else bnModSub (sender.delta i) a q
    playMta ot a b q sender receiver = if messageLength q < 2 ^ 31 then
      some (bnModSub (bnModSub 0 (innerProductLoop size q 0 (padded size (List.ofFn arrays.v))
          (List.ofFn sender.delta)) q) receiver.sigma q,
        bnModAdd (innerProductLoop size q 0 (padded size z) (List.ofFn arrays.v)) receiver.sigma q)
      else none := by
  intro size arrays z
  have nonZero : NeZero q := ⟨positive.ne'⟩
  have nonempty : 0 < lastEntry q + 1 := Nat.succ_pos _
  have vals := serialiseBignums_v b receiver
  rcases bn2binPadded_sigma receiver with ⟨sigma, number⟩
  have pairs := produceSenderPairs_delta a sender
  have someChoice := expandTToOtWidth_ne_nil positive nonempty arrays.t
  have received := received_eq (q := q) correct arrays.t
    (fun i => bnModSub (sender.delta i) a q) fun i => bnModAdd (sender.delta i) a q
  have ofReceiver := deserialiseInnerProduct_padded positive nonempty arrays.v fun i =>
    if arrays.t i then bnModAdd (sender.delta i) a q else bnModSub (sender.delta i) a q
  have ofSender := deserialiseInnerProduct_padded positive nonempty sender.delta arrays.v
  simp only [size, arrays, z] at *
  simp only [playMta, vals, sigma, pairs, receiverOt, if_neg someChoice, Option.bind_eq_bind,
    Option.bind_some, received, ofReceiver, ofSender, number, asInt, length_padded_vector,
    BigEndian.length_ofNat]
  by_cases sent : messageLength q < 2 ^ 31
  · simp only [if_pos sent, if_pos ((sizeOfEach_le_messageLength q).trans_lt sent),
      Option.bind_some]
    rfl
  · simp only [if_neg sent, Option.bind_none]

/-- The masks cancel, and the signed sum of the vector of the receiver is its input. -/
theorem outputs_add [NeZero q] (a b : ℕ) (sender : SenderDraws q) (receiver : ReceiverDraws q) :
    let arrays := generateTAndVInplace b q receiver.samples receiver.rands receiver.pos
    (0 - ∑ i, (sender.delta i * arrays.v i : ZMod q) - receiver.sigma) +
        (∑ i, (arrays.v i *
          (if arrays.t i then bnModAdd (sender.delta i) a q
            else bnModSub (sender.delta i) a q : ℕ) : ZMod q) + receiver.sigma) = a * b := by
  intro arrays
  have entry : ∀ i, (arrays.v i * (if arrays.t i then bnModAdd (sender.delta i) a q
      else bnModSub (sender.delta i) a q : ℕ) : ZMod q) =
        sender.delta i * arrays.v i + a * (sign (ZMod q) (arrays.t i) * arrays.v i) := by
    intro i
    cases arrays.t i with
    | true =>
        simp only [if_true, natCast_bnModAdd, sign]
        ring
    | false =>
        simp only [Bool.false_eq_true, if_false, natCast_bnModSub, sign]
        ring
  rw [Finset.sum_congr rfl fun i _ => entry i, Finset.sum_add_distrib, ← Finset.mul_sum,
    innerProduct_eq]
  ring

end Run

theorem messageLength_lt {q : ℕ} (bits : numBits q ≤ 2 ^ 16) : messageLength q < 2 ^ 31 := by
  have size : sizeOfEach q ≤ 8208 := by
    simp only [sizeOfEach, roundUpToBlock, numBytes, blockSize]
    omega
  have entries : lastEntry q + 1 ≤ 66048 := by
    simp only [lastEntry, k]
    omega
  calc messageLength q ≤ 8208 * 66048 := Nat.mul_le_mul size entries
    _ < 2 ^ 31 := by decide

theorem isSome_playMta {ot : BlockOt} (correct : CorrectBlockOt ot) {q : ℕ} (positive : 0 < q)
    (a b : ℕ) (sender : SenderDraws q) (receiver : ReceiverDraws q)
    (short : messageLength q < 2 ^ 31) : (playMta ot a b q sender receiver).isSome := by
  rw [playMta_eq correct positive a b sender receiver, if_pos short]
  rfl

theorem natCast_playMta {ot : BlockOt} (correct : CorrectBlockOt ot) {q : ℕ} (positive : 0 < q)
    {a b : ℕ} {sender : SenderDraws q} {receiver : ReceiverDraws q} {outputs : ℕ × ℕ}
    (completed : playMta ot a b q sender receiver = some outputs) :
    (outputs.1 + outputs.2 : ZMod q) = a * b := by
  have nonZero : NeZero q := ⟨positive.ne'⟩
  rw [playMta_eq correct positive a b sender receiver] at completed
  split_ifs at completed
  rcases Option.some.inj completed with ⟨rfl, rfl⟩
  rw [natCast_bnModSub, natCast_bnModSub, natCast_bnModAdd,
    natCast_innerProduct _ _ (generated_lt b _ _ receiver.samples_lt), natCast_innerProduct,
    Nat.cast_zero]
  · exact outputs_add a b sender receiver
  · intro i
    split_ifs
    · exact bnModAdd_lt _ _ _
    · exact bnModSub_lt _ _ _

/-- The outputs of a run add up to the product of the inputs modulo `q`, and the run completes
whenever the length of its longest message is an `int`. -/
theorem playMta_product {ot : BlockOt} (correct : CorrectBlockOt ot) {q : ℕ} (positive : 0 < q)
    (a b : ℕ) (sender : SenderDraws q) (receiver : ReceiverDraws q) :
    (∀ senderOut receiverOut,
      playMta ot a b q sender receiver = some (senderOut, receiverOut) →
        senderOut + receiverOut ≡ a * b [MOD q]) ∧
      (messageLength q < 2 ^ 31 → (playMta ot a b q sender receiver).isSome) := by
  constructor
  · intro senderOut receiverOut completed
    rw [← ZMod.natCast_eq_natCast_iff, Nat.cast_add, Nat.cast_mul]
    exact natCast_playMta correct positive completed
  · exact isSome_playMta correct positive a b sender receiver

/-- The prime of the curve P-256. -/
def p256 : ℕ := 2 ^ 256 - 2 ^ 224 + 2 ^ 192 + 2 ^ 96 - 1

theorem p256_pos : 0 < p256 := by decide

def sampleSender : SenderDraws p256 where
  delta := fun i => (i.val + 1) ^ 40 % p256
  delta_lt := fun _ => Nat.mod_lt _ p256_pos

def sampleReceiver : ReceiverDraws p256 where
  samples := fun i => (i.val + 2) ^ 41 % p256
  samples_lt := fun _ => Nat.mod_lt _ p256_pos
  rands := fun i => i.val % 3
  pos := 5
  sigma := 2 ^ 255
  sigma_lt := by decide

theorem playMta_product_p256 :
    ∃ senderOut receiverOut,
      playMta (fun zeros ones choices => choose choices zeros ones) (p256 - 5) (2 ^ 200 + 7) p256
          sampleSender sampleReceiver = some (senderOut, receiverOut) ∧
        senderOut + receiverOut ≡ (p256 - 5) * (2 ^ 200 + 7) [MOD p256] := by
  have bits : numBits p256 ≤ 2 ^ 16 := by
    have inside : numBits p256 ≤ 256 := Nat.size_le.mpr (by decide)
    omega
  have product := playMta_product (fun _ _ _ => rfl : CorrectBlockOt fun zeros ones choices =>
    choose choices zeros ones) p256_pos (p256 - 5) (2 ^ 200 + 7) sampleSender sampleReceiver
  rcases Option.isSome_iff_exists.mp (product.2 (messageLength_lt bits)) with ⟨outputs, completed⟩
  exact ⟨outputs.1, outputs.2, completed, product.1 _ _ completed⟩

end PracticalCrypto.Mta
