import PracticalCrypto.Mta.Zq

/-!
# Two runs of the MtA over one transfer

This file embeds `MtA::play_sender_inplace_iknp_2` and
`MtA::play_receiver_inplace_iknp_2` of `surf-impl/src/mta/MtA.cpp`. Both parties
prepare two runs, put the choice bits and the packs of the two behind each other for
one oblivious transfer, and cut the blocks that come out of it in the middle. The
vectors and masks of both runs travel behind each other as well, and the sender cuts
them by their lengths.

The packs are counted in bytes and the choices in blocks, so the cuts agree because a
number has a whole number of blocks. The outputs are those of two runs of their own.
-/

namespace PracticalCrypto.Mta

open Chunks

section Model

variable {q : ℕ}

/-- The preparation of one run by the receiver: its choices and its two messages. -/
def prepareReceiver (b : ℕ) (receiver : ReceiverDraws q) : Option (List Bool × Bytes × Bytes) := do
  let size := sizeOfEach q
  let arrays := generateTAndVInplace b q receiver.samples receiver.rands receiver.pos
  let tExtended := expandTToOtWidth (size / blockSize) (List.ofFn arrays.t)
  let vSerialised ← serialiseBignums (List.ofFn arrays.v) size
  let sigmaSerialised ← bn2binPadded size receiver.sigma
  pure (tExtended, vSerialised, sigmaSerialised)

/-- The preparation of one run by the sender: the packs of the sums and of the differences. -/
def prepareSender (a : ℕ) (sender : SenderDraws q) : Option (Bytes × Bytes) :=
  produceSenderPairs (List.ofFn sender.delta) a (sizeOfEach q) q

/-- The two `SSL_write` calls of the receiver for one run. -/
def writeRun (stream vSerialised sigmaSerialised : Bytes) : Option Bytes := do
  let _ ← asInt vSerialised.length
  let _ ← asInt sigmaSerialised.length
  pure (stream ++ vSerialised ++ sigmaSerialised)

/-- The `SSL_read` calls of the sender for one run: `n` numbers and the mask. -/
def readRun (q : ℕ) (stream : Bytes) : Option ((Bytes × Bytes) × Bytes) :=
  let valsSize := (numBits q + k) * sizeOfEach q
  let sigmaSize := sizeOfEach q
  if stream.length < valsSize + sigmaSize then none
  else some ((stream.take valsSize, (stream.drop valsSize).take sigmaSize),
    stream.drop (valsSize + sigmaSize))

/-- The output of the receiver for one run. -/
def finishReceiver (b : ℕ) (receiver : ReceiverDraws q) (z : List Bytes) : Option ℕ := do
  let arrays := generateTAndVInplace b q receiver.samples receiver.rands receiver.pos
  let tmp ← deserialiseInnerProduct z.flatten (List.ofFn arrays.v) (sizeOfEach q) q
  pure (bnModAdd tmp receiver.sigma q)

/-- The output of the sender for one run. -/
def finishSender (sender : SenderDraws q) (vals sigma : Bytes) : Option ℕ := do
  let tmp ← deserialiseInnerProduct vals (List.ofFn sender.delta) (sizeOfEach q) q
  pure (bnModSub (bnModSub 0 tmp q) (bin2bn sigma) q)

/--
`play_sender_inplace_iknp_2` and `play_receiver_inplace_iknp_2`: the two outputs of the
sender and the two outputs of the receiver.
-/
def playMtaIknp2 (ot : BlockOt) (a1 a2 b1 b2 : ℕ) (sender1 sender2 : SenderDraws q)
    (receiver1 receiver2 : ReceiverDraws q) : Option ((ℕ × ℕ) × (ℕ × ℕ)) := do
  let (t1, v1, sigma1) ← prepareReceiver b1 receiver1
  let (t2, v2, sigma2) ← prepareReceiver b2 receiver2
  let (add1, sub1) ← prepareSender a1 sender1
  let (add2, sub2) ← prepareSender a2 sender2
  -- One transfer for both runs.
  let half := t1.length
  if half ≠ t2.length then none
  else if sub1.length ≠ sub2.length ∨ sub1.length ≠ add1.length ∨
      sub1.length ≠ add2.length then none
  else do
    let zAll ← receiverOt ot (blocksOf (sub1 ++ sub2)) (blocksOf (add1 ++ add2)) (t1 ++ t2)
    let z1 := zAll.take half
    let z2 := (zAll.drop half).take half
    -- `v` and `sigma` of both runs in clear, in the order of the runs.
    let stream ← writeRun [] v1 sigma1
    let stream ← writeRun stream v2 sigma2
    let ((vals1, mask1), stream) ← readRun q stream
    let ((vals2, mask2), _) ← readRun q stream
    let ofReceiver1 ← finishReceiver b1 receiver1 z1
    let ofReceiver2 ← finishReceiver b2 receiver2 z2
    let ofSender1 ← finishSender sender1 vals1 mask1
    let ofSender2 ← finishSender sender2 vals2 mask2
    pure ((ofSender1, ofSender2), (ofReceiver1, ofReceiver2))

end Model

section Transfer

variable {q : ℕ}

theorem blocksOf_append {front : Bytes} {count : ℕ} (whole : front.length = blockSize * count)
    (back : Bytes) : blocksOf (front ++ back) = blocksOf front ++ blocksOf back := by
  have parts : (front ++ back).length / blockSize = count + back.length / blockSize := by
    rw [List.length_append, whole, Nat.mul_add_div (by decide)]
  have ofFront : front.length / blockSize = count := by
    rw [whole, Nat.mul_div_cancel_left _ (by decide)]
  rw [blocksOf, parts, chunks_append whole, blocksOf, ofFront, blocksOf]

theorem length_blocksOf_padded {count : ℕ} (numbers : Fin count → ℕ) :
    (blocksOf (padded (sizeOfEach q) (List.ofFn numbers))).length = blocksPerNumber q * count := by
  rw [blocksOf_padded, length_chunks]

theorem length_padded_ofFn {count : ℕ} (numbers : Fin count → ℕ) :
    (padded (sizeOfEach q) (List.ofFn numbers)).length =
      blockSize * (blocksPerNumber q * count) := by
  rw [length_padded, List.length_ofFn, sizeOfEach_eq, Nat.mul_assoc]

/-- The halves of the joint transfer are the transfers of the two runs. -/
theorem halves_eq {ot : BlockOt} (correct : CorrectBlockOt ot) {count : ℕ}
    (t1 t2 : Fin count → Bool) (sub1 sub2 add1 add2 : Fin count → ℕ) :
    let size := sizeOfEach q
    let choices := fun t : Fin count → Bool => expandTToOtWidth (size / blockSize) (List.ofFn t)
    let pack := fun numbers : Fin count → ℕ => padded size (List.ofFn numbers)
    let half := (choices t1).length
    let zAll := ot (blocksOf (pack sub1 ++ pack sub2)) (blocksOf (pack add1 ++ pack add2))
      (choices t1 ++ choices t2)
    (zAll.take half).flatten = pack (fun i => if t1 i then add1 i else sub1 i) ∧
      ((zAll.drop half).take half).flatten = pack fun i => if t2 i then add2 i else sub2 i := by
  intro size choices pack half zAll
  have choiceCount : ∀ t, (choices t).length = blocksPerNumber q * count :=
    length_expandTToOtWidth
  have blockCount : ∀ numbers, (blocksOf (pack numbers)).length = blocksPerNumber q * count :=
    length_blocksOf_padded
  have joint : zAll = choose (choices t1) (blocksOf (pack sub1)) (blocksOf (pack add1)) ++
      choose (choices t2) (blocksOf (pack sub2)) (blocksOf (pack add2)) := by
    have packs : ∀ front back,
        blocksOf (pack front ++ pack back) = blocksOf (pack front) ++ blocksOf (pack back) :=
      fun front back => blocksOf_append (length_padded_ofFn front) (pack back)
    simp only [zAll, correct _ _ _, packs]
    apply choose_append
    · rw [choiceCount, blockCount]
    · rw [blockCount, blockCount]
  have chosenCount : ∀ t sub add,
      (choose (choices t) (blocksOf (pack sub)) (blocksOf (pack add))).length = half := by
    intro t sub add
    simp only [choose, List.length_map, List.length_zip, blockCount, half, choiceCount, min_self]
  have received : ∀ t sub add,
      (choose (choices t) (blocksOf (pack sub)) (blocksOf (pack add))).flatten =
        pack fun i => if t i then add i else sub i := by
    intro t sub add
    rw [← correct]
    exact received_eq correct t sub add
  rw [joint, List.take_left' (chosenCount _ _ _), List.drop_left' (chosenCount _ _ _),
    List.take_of_length_le (chosenCount _ _ _).le]
  exact ⟨received _ _ _, received _ _ _⟩

theorem readRun_append {vals sigma : Bytes} (valsLength : vals.length = messageLength q)
    (sigmaLength : sigma.length = sizeOfEach q) (rest : Bytes) :
    readRun q (vals ++ sigma ++ rest) = some ((vals, sigma), rest) := by
  have valsSize : (numBits q + k) * sizeOfEach q = vals.length := by
    have entries : numBits q + k = lastEntry q + 1 := by
      simp only [lastEntry, k]
      omega
    rw [valsLength, messageLength, entries, Nat.mul_comm]
  have enough : ¬(vals ++ sigma ++ rest).length < vals.length + sizeOfEach q := by
    simp only [List.length_append]
    omega
  have both : vals.length + sizeOfEach q = (vals ++ sigma).length := by
    rw [List.length_append, sigmaLength]
  simp only [readRun, valsSize, if_neg enough]
  rw [both, List.drop_left, List.append_assoc, List.take_left, List.drop_left,
    List.take_left' sigmaLength]

end Transfer

section Run

variable {q : ℕ}

theorem prepareReceiver_eq [NeZero q] (b : ℕ) (receiver : ReceiverDraws q) :
    let arrays := generateTAndVInplace b q receiver.samples receiver.rands receiver.pos
    prepareReceiver b receiver =
      some (expandTToOtWidth (sizeOfEach q / blockSize) (List.ofFn arrays.t),
        padded (sizeOfEach q) (List.ofFn arrays.v),
        BigEndian.ofNat (sizeOfEach q) receiver.sigma) := by
  intro arrays
  have vals := serialiseBignums_v b receiver
  simp only [prepareReceiver, vals, (bn2binPadded_sigma receiver).1, Option.bind_eq_bind,
    Option.bind_some]
  rfl

theorem writeRun_eq (stream : Bytes) (v : Fin (lastEntry q + 1) → ℕ) (sigma : ℕ) :
    writeRun stream (padded (sizeOfEach q) (List.ofFn v)) (BigEndian.ofNat (sizeOfEach q) sigma) =
      if messageLength q < 2 ^ 31 then
        some (stream ++ padded (sizeOfEach q) (List.ofFn v) ++ BigEndian.ofNat (sizeOfEach q) sigma)
      else none := by
  simp only [writeRun, asInt, length_padded_vector, BigEndian.length_ofNat]
  by_cases sent : messageLength q < 2 ^ 31
  · simp only [if_pos sent, if_pos ((sizeOfEach_le_messageLength q).trans_lt sent)]
    rfl
  · simp only [if_neg sent]
    rfl

theorem finishReceiver_eq (positive : 0 < q) (b : ℕ) (receiver : ReceiverDraws q)
    {z : List Bytes} {entries : Fin (lastEntry q + 1) → ℕ}
    (received : z.flatten = padded (sizeOfEach q) (List.ofFn entries)) :
    let arrays := generateTAndVInplace b q receiver.samples receiver.rands receiver.pos
    finishReceiver b receiver z = some (bnModAdd (innerProductLoop (sizeOfEach q) q 0
      (padded (sizeOfEach q) (List.ofFn entries)) (List.ofFn arrays.v)) receiver.sigma q) := by
  intro arrays
  rw [finishReceiver, received, deserialiseInnerProduct_padded positive (Nat.succ_pos _)]
  rfl

theorem finishSender_eq (positive : 0 < q) (sender : SenderDraws q) (receiver : ReceiverDraws q)
    (v : Fin (lastEntry q + 1) → ℕ) :
    finishSender sender (padded (sizeOfEach q) (List.ofFn v))
        (BigEndian.ofNat (sizeOfEach q) receiver.sigma) =
      some (bnModSub (bnModSub 0 (innerProductLoop (sizeOfEach q) q 0
        (padded (sizeOfEach q) (List.ofFn v)) (List.ofFn sender.delta)) q) receiver.sigma q) := by
  rw [finishSender, deserialiseInnerProduct_padded positive (Nat.succ_pos _),
    (bn2binPadded_sigma receiver).2]
  rfl

/--
The two outputs of either party are those of two single runs with the same random values,
and the joint run ends early exactly if the single ones do.
-/
theorem playMtaIknp2_eq {ot : BlockOt} (correct : CorrectBlockOt ot) (positive : 0 < q)
    (a1 a2 b1 b2 : ℕ) (sender1 sender2 : SenderDraws q) (receiver1 receiver2 : ReceiverDraws q) :
    playMtaIknp2 ot a1 a2 b1 b2 sender1 sender2 receiver1 receiver2 = (do
      let (ofSender1, ofReceiver1) ← playMta ot a1 b1 q sender1 receiver1
      let (ofSender2, ofReceiver2) ← playMta ot a2 b2 q sender2 receiver2
      pure ((ofSender1, ofSender2), (ofReceiver1, ofReceiver2))) := by
  have nonZero : NeZero q := ⟨positive.ne'⟩
  let arrays1 := generateTAndVInplace b1 q receiver1.samples receiver1.rands receiver1.pos
  let arrays2 := generateTAndVInplace b2 q receiver2.samples receiver2.rands receiver2.pos
  have prepared1 := prepareReceiver_eq b1 receiver1
  have prepared2 := prepareReceiver_eq b2 receiver2
  have sameChoices : ¬(expandTToOtWidth (sizeOfEach q / blockSize) (List.ofFn arrays1.t)).length ≠
      (expandTToOtWidth (sizeOfEach q / blockSize) (List.ofFn arrays2.t)).length := by
    rw [length_expandTToOtWidth, length_expandTToOtWidth]
    simp
  have someChoice : expandTToOtWidth (sizeOfEach q / blockSize) (List.ofFn arrays1.t) ++
      expandTToOtWidth (sizeOfEach q / blockSize) (List.ofFn arrays2.t) ≠ [] :=
    List.append_ne_nil_of_left_ne_nil
      (expandTToOtWidth_ne_nil positive (Nat.succ_pos _) arrays1.t) _
  rcases halves_eq (q := q) correct arrays1.t arrays2.t (fun i => bnModSub (sender1.delta i) a1 q)
    (fun i => bnModSub (sender2.delta i) a2 q) (fun i => bnModAdd (sender1.delta i) a1 q)
    (fun i => bnModAdd (sender2.delta i) a2 q) with ⟨half1, half2⟩
  have received1 := finishReceiver_eq positive b1 receiver1 half1
  have received2 := finishReceiver_eq positive b2 receiver2 half2
  rw [playMta_eq correct positive a1 b1, playMta_eq correct positive a2 b2]
  simp only [arrays1, arrays2] at sameChoices someChoice received1 received2
  simp only [playMtaIknp2, prepared1, prepared2, prepareSender, produceSenderPairs_delta,
    Option.bind_eq_bind, Option.bind_some, if_neg sameChoices, length_padded_vector, ne_eq,
    not_true_eq_false, or_self, if_false, receiverOt, if_neg someChoice, writeRun_eq]
  by_cases sent : messageLength q < 2 ^ 31
  · have cut1 := readRun_append (length_padded_vector arrays1.v)
      (BigEndian.length_ofNat (sizeOfEach q) receiver1.sigma)
      (padded (sizeOfEach q) (List.ofFn arrays2.v) ++
        BigEndian.ofNat (sizeOfEach q) receiver2.sigma)
    have cut2 := readRun_append (length_padded_vector arrays2.v)
      (BigEndian.length_ofNat (sizeOfEach q) receiver2.sigma) []
    simp only [← List.append_assoc, List.append_nil] at cut1 cut2
    simp only [arrays1, arrays2] at *
    simp only [if_pos sent, Option.bind_some, List.nil_append, cut1, cut2, received1, received2,
      finishSender_eq positive]
  · simp only [if_neg sent, Option.bind_none]

theorem playMtaIknp2_eq_p256 :
    playMtaIknp2 (fun zeros ones choices => choose choices zeros ones) (p256 - 5) 3 (2 ^ 200 + 7) 4
        sampleSender sampleSender sampleReceiver sampleReceiver = (do
      let (ofSender1, ofReceiver1) ← playMta (fun zeros ones choices => choose choices zeros ones)
        (p256 - 5) (2 ^ 200 + 7) p256 sampleSender sampleReceiver
      let (ofSender2, ofReceiver2) ← playMta (fun zeros ones choices => choose choices zeros ones)
        3 4 p256 sampleSender sampleReceiver
      pure ((ofSender1, ofSender2), (ofReceiver1, ofReceiver2))) :=
  playMtaIknp2_eq (fun _ _ _ => rfl) p256_pos (p256 - 5) 3 (2 ^ 200 + 7) 4 sampleSender
    sampleSender sampleReceiver sampleReceiver

end Run

end PracticalCrypto.Mta
