import PracticalCrypto.Mta.Single

/-!
# Powers by repeated MtA

This file embeds `F2128_MTA::generate_shares_repeated` of
`surf-impl/src/mta/F2128MtA.inl`. The parties hold shares that add up to `h`, square
them locally, and get every further odd power from the even power before it with two
multiplications, in which the prover is the sender and the verifier the receiver.

The multiplication is a parameter of the run, since a run uses fresh random values
for every call. `SharesProduct` is what the run needs of it, and `single_iter` has it.
-/

namespace PracticalCrypto.F2128Mta

open Gf128

/-- The two outputs of the call in a round, for the inputs of the prover and the verifier. -/
abbrev Mta : Type := ℕ → Bool → BitVec 128 → BitVec 128 → Option (BitVec 128 × BitVec 128)

/-- Every call returns shares of the product of its inputs. -/
def SharesProduct (mta : Mta) : Prop :=
  ∀ round second proverIn verifierIn, ∃ ofProver ofVerifier,
    mta round second proverIn verifierIn = some (ofProver, ofVerifier) ∧
      ofProver ^^^ ofVerifier = mul proverIn verifierIn

abbrev Tables : Type := (ℕ → BitVec 128) × (ℕ → BitVec 128)

section Model

variable (mta : Mta) (proverIn verifierIn : BitVec 128)

/-- The tables before the loop: the inputs and their squares. -/
def startTables : Tables :=
  (computeSquares (Function.update (fun _ => 0#128) 0 proverIn) 0,
    computeSquares (Function.update (fun _ => 0#128) 0 verifierIn) 0)

/-- A round of the loop of both parties. The first call multiplies the power of the prover with
the input of the verifier, and the second one the input of the prover with the power of the
verifier. -/
def repeatedRound (tables : Tables) (i : ℕ) : Option Tables := do
  let first ← mta i false (tables.1 (i - 1)) verifierIn
  let second ← mta i true proverIn (tables.2 (i - 1))
  let ofProver := mul (tables.1 (i - 1)) proverIn ^^^ first.1 ^^^ second.1
  let ofVerifier := mul (tables.2 (i - 1)) verifierIn ^^^ first.2 ^^^ second.2
  pure (computeSquares (Function.update tables.1 i ofProver) i,
    computeSquares (Function.update tables.2 i ofVerifier) i)

/-- The first `n` rounds of the loop. -/
def repeatedRounds (n : ℕ) : Option Tables :=
  (List.range n).foldlM (fun tables k => repeatedRound mta proverIn verifierIn tables (2 * k + 2))
    (startTables proverIn verifierIn)

/-- `generate_shares_repeated` of both parties. -/
def generateSharesRepeated : Option Tables :=
  repeatedRounds mta proverIn verifierIn (numPowers / 2 - 1)

end Model

section Squares

/-- The entries at the doublings of the exponents up to `2 * n + 1` are shares of powers. -/
def SharesPowers (h : Quotient) (tables : Tables) (n : ℕ) : Prop :=
  ∀ k s t, k < numPowers → k + 1 = (2 * s + 1) * 2 ^ t → s ≤ n →
    elem (tables.1 k) + elem (tables.2 k) = h ^ (k + 1)

/-- Squaring from one odd exponent on, with shares of its power at the start. -/
theorem elem_computeSquares {ofProver ofVerifier : ℕ → BitVec 128} {h : Quotient} {s : ℕ}
    (start : elem (ofProver (2 * s)) + elem (ofVerifier (2 * s)) = h ^ (2 * s + 1)) (t : ℕ) :
    ∀ k < numPowers, k + 1 = (2 * s + 1) * 2 ^ t →
      elem (computeSquares ofProver (2 * s) k) + elem (computeSquares ofVerifier (2 * s) k) =
        h ^ (k + 1) := by
  induction t with
  | zero =>
      intro k _ double
      obtain rfl : k = 2 * s := by omega
      have untouched : ∀ t, 2 * s + 1 ≠ (2 * s + 1) * 2 ^ (t + 1) := by
        intro t same
        rw [pow_succ, ← mul_assoc] at same
        omega
      rw [computeSquares, computeSquares, squareLoop_of_not_double _ _ _ _ rfl untouched,
        squareLoop_of_not_double _ _ _ _ rfl untouched, start]
  | succ t ih =>
      intro k inTable double
      rw [pow_succ, ← mul_assoc] at double
      obtain ⟨k, rfl⟩ : ∃ half, k = 2 * half + 1 := ⟨k / 2, by omega⟩
      have half : k + 1 = (2 * s + 1) * 2 ^ t := by omega
      have smaller := ih k (by omega) half
      rw [computeSquares] at smaller ⊢
      rw [computeSquares] at smaller ⊢
      rw [squareLoop_double _ _ _ _ rfl inTable t half, squareLoop_double _ _ _ _ rfl inTable t half,
        elem_mul, elem_mul, ← sq, ← sq, ← add_pow_char, smaller, ← pow_mul]
      ring

theorem computeSquares_update_of_ne (out : ℕ → BitVec 128) (block : BitVec 128) {k s n t : ℕ}
    (double : k + 1 = (2 * s + 1) * 2 ^ t) (other : s ≠ n) :
    computeSquares (Function.update out (2 * n) block) (2 * n) k = out k := by
  rw [computeSquares, squareLoop_of_not_double _ _ _ _ rfl]
  · apply Function.update_of_ne
    rintro rfl
    apply other
    apply odd_part_unique (t := t) (u := 0)
    omega
  · intro u same
    apply other
    exact odd_part_unique (double.symm.trans same)

end Squares

section Run

variable {mta : Mta} {proverIn verifierIn : BitVec 128}

theorem repeatedRounds_succ (n : ℕ) :
    repeatedRounds mta proverIn verifierIn (n + 1) =
      (repeatedRounds mta proverIn verifierIn n).bind fun tables =>
        repeatedRound mta proverIn verifierIn tables (2 * n + 2) := by
  rw [repeatedRounds, List.range_succ, List.foldlM_append]
  simp [repeatedRounds]

theorem sharesPowers_start :
    SharesPowers (elem proverIn + elem verifierIn) (startTables proverIn verifierIn) 0 := by
  intro k s t inTable double first
  obtain rfl : s = 0 := by omega
  apply elem_computeSquares _ t k inTable double
  simp

/-- Every odd exponent follows an even one whose odd part is smaller. -/
theorem SharesPowers.even {h : Quotient} {tables : Tables} {n : ℕ}
    (powers : SharesPowers h tables n) (inTable : 2 * n + 1 < numPowers) :
    elem (tables.1 (2 * n + 1)) + elem (tables.2 (2 * n + 1)) = h ^ (2 * n + 2) := by
  rcases exists_odd_part n with ⟨s, t, double, bound⟩
  apply powers (2 * n + 1) s (t + 1) inTable
  · rw [pow_succ, ← mul_assoc, ← double]
    ring
  · omega

theorem sharesPowers_round (shares : SharesProduct mta) {tables : Tables} {n : ℕ}
    (powers : SharesPowers (elem proverIn + elem verifierIn) tables n)
    (inTable : 2 * n + 2 < numPowers) :
    ∃ next, repeatedRound mta proverIn verifierIn tables (2 * n + 2) = some next ∧
      SharesPowers (elem proverIn + elem verifierIn) next (n + 1) := by
  rcases shares (2 * n + 2) false (tables.1 (2 * n + 1)) verifierIn with
    ⟨firstProver, firstVerifier, firstCall, firstProduct⟩
  rcases shares (2 * n + 2) true proverIn (tables.2 (2 * n + 1)) with
    ⟨secondProver, secondVerifier, secondCall, secondProduct⟩
  let ofProver := mul (tables.1 (2 * n + 1)) proverIn ^^^ firstProver ^^^ secondProver
  let ofVerifier := mul (tables.2 (2 * n + 1)) verifierIn ^^^ firstVerifier ^^^ secondVerifier
  have round : repeatedRound mta proverIn verifierIn tables (2 * n + 2) =
      some (computeSquares (Function.update tables.1 (2 * n + 2) ofProver) (2 * n + 2),
        computeSquares (Function.update tables.2 (2 * n + 2) ofVerifier) (2 * n + 2)) := by
    simp only [repeatedRound, show 2 * n + 2 - 1 = 2 * n + 1 by omega, firstCall, secondCall,
      Option.bind_eq_bind, Option.bind_some]
    rfl
  refine ⟨_, round, ?_⟩
  intro k s t inside double reached
  rcases Nat.lt_or_ge s (n + 1) with earlier | now
  · have other : s ≠ n + 1 := by omega
    have kept := powers k s t inside double (by omega)
    rwa [← computeSquares_update_of_ne tables.1 ofProver double other,
      ← computeSquares_update_of_ne tables.2 ofVerifier double other] at kept
  · obtain rfl : s = n + 1 := by omega
    apply elem_computeSquares _ t k inside double
    -- The four products of the shares of the power and of the inputs.
    have even := powers.even (by omega)
    have firstSum := congrArg elem firstProduct
    have secondSum := congrArg elem secondProduct
    rw [elem_xor, elem_mul] at firstSum secondSum
    rw [show 2 * (n + 1) = 2 * n + 2 by ring, Function.update_self, Function.update_self]
    simp only [ofProver, ofVerifier, elem_xor, elem_mul]
    rw [pow_succ, ← even]
    linear_combination firstSum + secondSum

/-- The loop completes, and every round extends what the tables share. -/
theorem sharesPowers_rounds (shares : SharesProduct mta) (n : ℕ) (inTable : 2 * n < numPowers) :
    ∃ tables, repeatedRounds mta proverIn verifierIn n = some tables ∧
      SharesPowers (elem proverIn + elem verifierIn) tables n := by
  induction n with
  | zero => exact ⟨_, rfl, sharesPowers_start⟩
  | succ n ih =>
      rcases ih (by omega) with ⟨tables, completed, powers⟩
      rcases sharesPowers_round shares powers (by omega) with ⟨next, round, morePowers⟩
      refine ⟨next, ?_, morePowers⟩
      rw [repeatedRounds_succ, completed, Option.bind_some, round]

end Run

/-- An honest run completes, and the entries of the two tables add up to the powers of the sum of
the inputs. -/
theorem generateSharesRepeated_power {mta : Mta} (shares : SharesProduct mta)
    (proverIn verifierIn : BitVec 128) :
    ∃ tables, generateSharesRepeated mta proverIn verifierIn = some tables ∧
      ∀ k < numPowers, tables.1 k ^^^ tables.2 k = pow (proverIn ^^^ verifierIn) (k + 1) := by
  rcases sharesPowers_rounds shares (numPowers / 2 - 1) (by decide) with
    ⟨tables, completed, powers⟩
  refine ⟨tables, completed, ?_⟩
  intro k inTable
  rcases exists_odd_part k with ⟨s, t, double, bound⟩
  apply elem_injective
  rw [elem_xor, elem_pow, elem_xor, powers k s t inTable double]
  simp only [numPowers] at inTable ⊢
  omega

/-- `single_iter` with the random values of every call. -/
def singleMta (library : SingleLibrary) (senders : ℕ → Bool → SingleSender)
    (receivers : ℕ → Bool → SingleReceiver) : Mta := fun round second =>
  singleIter library (senders round second) (receivers round second)

theorem sharesProduct_singleMta {library : SingleLibrary} (correct : library.Correct)
    (senders : ℕ → Bool → SingleSender) (receivers : ℕ → Bool → SingleReceiver) :
    SharesProduct (singleMta library senders receivers) := by
  intro round second proverIn verifierIn
  rcases elem_singleIter correct (senders round second) (receivers round second) proverIn
    verifierIn with ⟨ofProver, ofVerifier, completes, product⟩
  refine ⟨ofProver, ofVerifier, completes, ?_⟩
  apply elem_injective
  rw [elem_xor, elem_mul, product]

theorem generateSharesRepeated_power_single :
    ∃ tables, generateSharesRepeated (singleMta directLibrary (fun _ _ => sampleSingleSender)
        fun _ _ => sampleSingleReceiver) 0x1234 0xabcd = some tables ∧
      ∀ k < numPowers, tables.1 k ^^^ tables.2 k = pow (0x1234 ^^^ 0xabcd) (k + 1) :=
  generateSharesRepeated_power (sharesProduct_singleMta directLibrary_correct _ _) _ _

end PracticalCrypto.F2128Mta
