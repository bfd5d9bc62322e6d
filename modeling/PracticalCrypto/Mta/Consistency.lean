import PracticalCrypto.Mta.Batched

/-!
# The consistency check of the batched MtA

The sender of the batched MtA writes a vector with two entries for every row: a
combination of its inputs under the challenges, and the sum of its pads under them.
The receiver reads the vector and decides whether the sender used the same inputs in
all transfers.

This file compares what the check is for with what `check_consistency_batched` does.
`Complete` says that the vector of an honest sender passes, and `DetectsTampering`
that no vector passes which differs from it in one sum of pads. In the source a row
fails when its two sides are equal, so a changed sum fails only if it makes them equal.
-/

namespace PracticalCrypto.F2128Mta

open Gf128

variable (ot : Ot) (sender : SenderRandom) (receiver : ReceiverRandom)

/-- The vector that `prove_consistency_batched` writes in a run. -/
def honestVector : ℕ → BitVec 128 :=
  proveConsistencyBatched sender receiver.chi

/-- Whether `check_consistency_batched` accepts a vector in a run. -/
def acceptsVector (r : ℕ → BitVec 128) : Bool :=
  checkConsistencyBatched r (received ot sender receiver) sender.chi receiver.chi
    (getBatchedChoiceBits receiver.beta)

def Complete : Prop :=
  acceptsVector ot sender receiver (honestVector sender receiver) = true

/-- No other block in the place of one sum of pads is accepted. -/
def DetectsTampering : Prop :=
  ∀ i < gadgetElements, ∀ block ≠ honestVector sender receiver (2 * i + 1),
    acceptsVector ot sender receiver
      (Function.update (honestVector sender receiver) (2 * i + 1) block) = false

section Tampered

variable {r t chi chiHat : ℕ → BitVec 128} {beta : ℕ → Bool} {i k : ℕ} {block : BitVec 128}

theorem rowRhs_update : rowRhs (Function.update r (2 * i + 1) block) beta k = rowRhs r beta k := by
  rw [rowRhs, rowRhs, Function.update_of_ne (by omega)]

theorem rowTmp_update_of_ne (other : k ≠ i) :
    rowTmp (Function.update r (2 * i + 1) block) t chi chiHat k = rowTmp r t chi chiHat k := by
  rw [rowTmp, rowTmp, Function.update_of_ne (by omega)]

/-- In its own row, a changed entry moves the left side by the same difference. -/
theorem rowTmp_update_self :
    rowTmp (Function.update r (2 * i + 1) block) t chi chiHat i =
      rowTmp r t chi chiHat i ^^^ r (2 * i + 1) ^^^ block := by
  apply elem_injective
  rw [elem_xor, elem_xor, elem_rowTmp, elem_rowTmp, Function.update_self]
  have two : (2 : Quotient) = 0 := CharTwo.two_eq_zero
  linear_combination (- elem (r (2 * i + 1))) * two

theorem exists_other_block (a b : BitVec 128) : ∃ block, block ≠ a ∧ block ≠ b := by
  by_contra all
  push Not at all
  have zero := all 0
  have one := all 1
  have two := all 2
  grind

end Tampered

/-- If the honest vector is accepted, then so is some vector with a changed sum of pads. -/
theorem exists_accepted_tampering (complete : Complete ot sender receiver) {i : ℕ}
    (inVector : i < gadgetElements) :
    ∃ block ≠ honestVector sender receiver (2 * i + 1),
      acceptsVector ot sender receiver
        (Function.update (honestVector sender receiver) (2 * i + 1) block) = true := by
  rw [Complete, acceptsVector, checkConsistencyBatched_iff] at complete
  let r := honestVector sender receiver
  let tmp := rowTmp r (received ot sender receiver) sender.chi receiver.chi i
  let rhs := rowRhs r (getBatchedChoiceBits receiver.beta) i
  -- The one block that makes the two sides of the row equal.
  rcases exists_other_block (r (2 * i + 1)) (tmp ^^^ r (2 * i + 1) ^^^ rhs) with
    ⟨block, changed, notEqual⟩
  refine ⟨block, changed, ?_⟩
  rw [acceptsVector, checkConsistencyBatched_iff]
  intro k inCheck
  rw [rowRhs_update]
  rcases eq_or_ne k i with rfl | other
  · rw [rowTmp_update_self]
    intro same
    apply notEqual
    change tmp ^^^ r (2 * k + 1) ^^^ block = rhs at same
    rw [← same, ← BitVec.xor_assoc, BitVec.xor_self, BitVec.zero_xor]
  · rw [rowTmp_update_of_ne other]
    exact complete k inCheck

/-- The check never does both: accept the honest vector and detect a changed sum of pads. -/
theorem not_complete_and_detectsTampering :
    ¬(Complete ot sender receiver ∧ DetectsTampering ot sender receiver) := by
  rintro ⟨complete, detects⟩
  have first : 0 < gadgetElements := by decide
  rcases exists_accepted_tampering ot sender receiver complete first with
    ⟨block, changed, accepted⟩
  have refused := detects 0 first block changed
  rw [accepted] at refused
  exact Bool.noConfusion refused

/-- The sum of pads in the first row is zero, and five is accepted in its place. -/
theorem tampering_accepted_unitSender :
    CorrectOt directOt ∧ Complete directOt unitSender lateReceiver ∧
      ¬DetectsTampering directOt unitSender lateReceiver := by
  have zeroNeOne : (0 : Quotient) ≠ 1 := zero_ne_one
  refine ⟨fun _ _ _ _ => rfl, ?_, ?_⟩
  · apply check_unitSender
    intro i _
    rw [honestVector, elem_unitSender_even, elem_unitSender_odd]
    exact zeroNeOne
  · intro detects
    have changed : (5 : BitVec 128) ≠ honestVector unitSender lateReceiver (2 * 0 + 1) := by
      intro same
      have zero : elem 5 = elem 0#128 := by
        rw [same, honestVector, elem_unitSender_odd, elem_zero]
      exact absurd (elem_injective zero) (by decide)
    have refused := detects 0 (by decide) 5 changed
    rw [acceptsVector, check_unitSender] at refused
    · exact Bool.noConfusion refused
    · intro i _
      rw [Function.update_of_ne (by omega : 2 * i ≠ 2 * 0 + 1), honestVector, elem_unitSender_even]
      rcases Nat.eq_zero_or_pos i with rfl | later
      · rw [Function.update_self, ← elem_one]
        intro same
        exact absurd (elem_injective same) (by decide)
      · rw [Function.update_of_ne (by omega : 2 * i + 1 ≠ 2 * 0 + 1), elem_unitSender_odd]
        exact zeroNeOne

end PracticalCrypto.F2128Mta
