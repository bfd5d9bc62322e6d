import PracticalCrypto.Library.Density
import PracticalCrypto.Mta.TAndV
import Mathlib.Algebra.Field.ZMod
import Mathlib.Analysis.Complex.ExponentialBounds

/-!
# How well the MtA receiver hides its input

The receiver writes its vector `v` in clear, so the sender can add up its
entries. The sum differs from `b` by twice the entries whose choice bit is
`false`, and a choice bit is `false` only when `rand()` returned exactly `0`,
which has probability `2^-31`. With `n = BN_num_bits(q) + 512` entries the
probability that no bit is `false`, which makes the sum equal to `b`, is
`(1 - 2^-31)^(n - 1)`. It stays above one half until `n - 1` reaches
`1488522236`.
-/

namespace PracticalCrypto.Mta

/-- Every `rand()` call is uniform on `0, …, 2^31 - 1`, every entry of `v` on `1, …, q - 1`. -/
abbrev Draws (q last : ℕ) : Type := (Fin (last + 1) → Fin (2 ^ 31)) × (Fin (last + 1) → Fin (q - 1))

def generated (b q : ℕ) {last : ℕ} (draws : Draws q last) (pos : ℕ) : TAndV last :=
  generateTAndVInplace b q (fun i => draws.2 i + 1) (fun i => draws.1 i) pos

def recovering (b q last pos : ℕ) : Finset (Draws q last) :=
  Finset.univ.filter fun draws => senderSum q (generated b q draws pos) = b

/-- The probability that the sender recovers `b` by adding up the vector of `n` entries. -/
def recoverProbability (b q pos : ℕ) : ℚ≥0 :=
  (recovering b q (numBits q + k - 1) pos).dens

section Outcomes

variable {b q last pos : ℕ}

def negatedSum (draws : Draws q last) : ZMod q :=
  ∑ i : Fin last, if draws.1 i.castSucc = 0 then ((draws.2 i.castSucc : ℕ) + 1 : ZMod q) else 0

theorem mem_recovering [Fact q.Prime] (odd : q ≠ 2) (bLt : b < q) (draws : Draws q last) :
    draws ∈ recovering b q last pos ↔ negatedSum draws = 0 := by
  have twoNonzero : (2 : ZMod q) ≠ 0 := by
    intro isZero
    have divides : q ∣ 2 := (ZMod.natCast_eq_zero_iff 2 q).mp (by exact_mod_cast isZero)
    exact odd ((Nat.prime_dvd_prime_iff_eq Fact.out Nat.prime_two).mp divides)
  have sameResidue : senderSum q (generated b q draws pos) = b ↔
      ((∑ i, (generated b q draws pos).v i : ℕ) : ZMod q) = b := by
    rw [ZMod.natCast_eq_natCast_iff', Nat.mod_eq_of_lt bLt]
    rfl
  have doubled : ((∑ i, (generated b q draws pos).v i : ℕ) : ZMod q) =
      b + 2 * negatedSum draws := by
    rw [generated, sum_eq, negatedSum]
    simp [Fin.val_eq_zero_iff]
  rw [recovering, Finset.mem_filter, sameResidue, doubled]
  simp [twoNonzero]

/-- No entry but the last one got the choice bit `false`. -/
def allPositive (q last : ℕ) : Finset (Draws q last) :=
  Fintype.piFinset (fun i => if i = Fin.last last then Finset.univ else Finset.univ.erase 0) ×ˢ
    Finset.univ

theorem mem_allPositive (draws : Draws q last) :
    draws ∈ allPositive q last ↔ ∀ i : Fin last, draws.1 i.castSucc ≠ 0 := by
  rw [allPositive, Finset.mem_product, Fintype.mem_piFinset, Fin.forall_fin_succ']
  simp [(Fin.castSucc_lt_last _).ne]

theorem dens_allPositive (qLarge : 1 < q) :
    (allPositive q last).dens = ((2 ^ 31 - 1 : ℕ) / (2 ^ 31 : ℕ) : ℚ≥0) ^ last := by
  have nonempty : Nonempty (Fin (q - 1)) := ⟨⟨0, by omega⟩⟩
  rw [allPositive, Density.dens_product_univ, Density.dens_piFinset, Fin.prod_univ_castSucc]
  simp only [(Fin.castSucc_lt_last _).ne, if_false, if_true, Finset.dens_univ, mul_one]
  rw [Finset.prod_const, Finset.card_univ, Fintype.card_fin, Finset.dens_eq_card_div_card,
    Finset.card_erase_of_mem (Finset.mem_univ _), Finset.card_univ, Fintype.card_fin]

/-- Some entry got the choice bit `false`, and the entries that did cancel. -/
def cancelling (q last : ℕ) : Finset (Draws q last) :=
  Finset.univ.filter fun draws =>
    (∃ i : Fin last, draws.1 i.castSucc = 0) ∧ negatedSum draws = 0

/-- The position of an entry with the choice bit `false`, or the last position. -/
noncomputable def negatedIndex (rands : Fin (last + 1) → Fin (2 ^ 31)) : Fin (last + 1) :=
  open Classical in
  if negated : ∃ i : Fin last, rands i.castSucc = 0 then negated.choose.castSucc else Fin.last last

theorem natCast_entry_injective (qLarge : 1 < q) {left right : Fin (q - 1)}
    (same : ((left : ℕ) + 1 : ZMod q) = (right : ℕ) + 1) : left = right := by
  have sameCast : (((left : ℕ) + 1 : ℕ) : ZMod q) = ((right : ℕ) + 1 : ℕ) := by
    exact_mod_cast same
  rw [ZMod.natCast_eq_natCast_iff', Nat.mod_eq_of_lt (by omega), Nat.mod_eq_of_lt (by omega)]
    at sameCast
  exact Fin.ext (by omega)

/-- A negated entry is determined by the others, so cancelling is unlikely. -/
theorem dens_cancelling (qLarge : 1 < q) :
    (cancelling q last).dens ≤ ((q - 1 : ℕ) : ℚ≥0)⁻¹ := by
  have nonempty : Nonempty (Fin (q - 1)) := ⟨⟨0, by omega⟩⟩
  have cardEq : ((q - 1 : ℕ) : ℚ≥0)⁻¹ = (Fintype.card (Fin (q - 1)) : ℚ≥0)⁻¹ := by simp
  refine le_of_le_of_eq (Density.dens_le_inv_card negatedIndex ?_) cardEq.symm
  intro rands left right leftMem rightMem agree
  simp only [cancelling, Finset.mem_filter, Finset.mem_univ, true_and] at leftMem rightMem
  rcases leftMem with ⟨negated, leftZero⟩
  have chosen : rands negated.choose.castSucc = 0 := negated.choose_spec
  have indexEq : negatedIndex rands = negated.choose.castSucc := dif_pos negated
  rw [indexEq] at agree
  have sums := leftZero.trans rightMem.2.symm
  simp only [negatedSum] at sums
  -- both sums vanish and agree away from the chosen entry, so they agree on it too
  rw [← Finset.add_sum_erase _ _ (Finset.mem_univ negated.choose),
    ← Finset.add_sum_erase _ _ (Finset.mem_univ negated.choose)] at sums
  have others : ∀ i ∈ Finset.univ.erase negated.choose,
      (if rands i.castSucc = 0 then ((left i.castSucc : ℕ) + 1 : ZMod q) else 0) =
        if rands i.castSucc = 0 then ((right i.castSucc : ℕ) + 1 : ZMod q) else 0 := by
    intro i away
    have differs : i.castSucc ≠ negated.choose.castSucc := by
      intro same
      exact Finset.ne_of_mem_erase away (Fin.castSucc_injective _ same)
    rw [agree _ differs]
  rw [Finset.sum_congr rfl others, if_pos chosen, if_pos chosen] at sums
  have sameEntry := natCast_entry_injective qLarge (add_right_cancel sums)
  funext j
  by_cases same : j = negated.choose.castSucc
  · rw [same, sameEntry]
  · exact agree j same

section Bounds

variable [Fact q.Prime]

theorem allPositive_subset_recovering (odd : q ≠ 2) (bLt : b < q) :
    allPositive q last ⊆ recovering b q last pos := by
  intro draws positive
  rw [mem_allPositive] at positive
  rw [mem_recovering odd bLt, negatedSum]
  apply Finset.sum_eq_zero
  intro i _
  rw [if_neg (positive i)]

theorem recovering_subset (odd : q ≠ 2) (bLt : b < q) :
    recovering b q last pos ⊆ allPositive q last ∪ cancelling q last := by
  intro draws recovers
  rw [mem_recovering odd bLt] at recovers
  by_cases negated : ∃ i : Fin last, draws.1 i.castSucc = 0
  · apply Finset.mem_union_right
    exact Finset.mem_filter.mpr ⟨Finset.mem_univ _, negated, recovers⟩
  · apply Finset.mem_union_left
    rw [mem_allPositive]
    exact not_exists.mp negated

theorem dens_recovering_ge (odd : q ≠ 2) (bLt : b < q) :
    ((2 ^ 31 - 1 : ℕ) / (2 ^ 31 : ℕ) : ℚ≥0) ^ last ≤ (recovering b q last pos).dens := by
  rw [← dens_allPositive (Fact.out : q.Prime).one_lt]
  exact Finset.dens_le_dens (allPositive_subset_recovering odd bLt)

theorem dens_recovering_le (odd : q ≠ 2) (bLt : b < q) :
    (recovering b q last pos).dens ≤
      ((2 ^ 31 - 1 : ℕ) / (2 ^ 31 : ℕ) : ℚ≥0) ^ last + ((q - 1 : ℕ) : ℚ≥0)⁻¹ := by
  have qLarge := (Fact.out : q.Prime).one_lt
  calc
    (recovering b q last pos).dens ≤ (allPositive q last ∪ cancelling q last).dens :=
      Finset.dens_le_dens (recovering_subset odd bLt)
    _ ≤ (allPositive q last).dens + (cancelling q last).dens := Finset.dens_union_le _ _
    _ ≤ _ := add_le_add (dens_allPositive qLarge).le (dens_cancelling qLarge)

end Bounds

end Outcomes

section Threshold

open Real

theorem neg_log_near :
    (1 / 2 ^ 31 + 1 / 2 ^ 63 - 1 / 2 ^ 90 : ℝ) ≤ -log (1 - 1 / 2 ^ 31) ∧
      -log (1 - 1 / 2 ^ 31) ≤ (1 / 2 ^ 31 + 1 / 2 ^ 63 + 1 / 2 ^ 90 : ℝ) := by
  have small : |(1 / 2 ^ 31 : ℝ)| < 1 := by norm_num
  have series := abs_le.mp (abs_log_sub_add_sum_range_le small 2)
  rw [Finset.sum_range_succ, Finset.sum_range_one] at series
  norm_num at series ⊢
  constructor
  · linarith
  · linarith

theorem half_lt_pow {exponent : ℕ} (few : exponent ≤ 1488522235) :
    (1 / 2 : ℝ) < (1 - 1 / 2 ^ 31) ^ exponent := by
  have logTwo := abs_le.mp log_two_near_10
  have fewReal : (exponent : ℝ) ≤ 1488522235 := by exact_mod_cast few
  have base : (0 : ℝ) < 1 - 1 / 2 ^ 31 := by norm_num
  have total : exponent * -log (1 - 1 / 2 ^ 31) ≤
      1488522235 * (1 / 2 ^ 31 + 1 / 2 ^ 63 + 1 / 2 ^ 90 : ℝ) := by
    apply mul_le_mul fewReal neg_log_near.2 _ (by norm_num)
    exact le_trans (by norm_num) neg_log_near.1
  rw [← log_lt_log_iff (by norm_num) (pow_pos base exponent), log_pow, one_div, log_inv]
  norm_num at total logTwo ⊢
  linarith

/-- From the threshold on, the power is below one half with room for the cancelling outcomes. -/
theorem pow_le_half {exponent : ℕ} (many : 1488522236 ≤ exponent) :
    ((1 - 1 / 2 ^ 31) ^ exponent : ℝ) ≤ 1 / 2 - 1 / 2 ^ 36 := by
  have logTwo := abs_le.mp log_two_near_10
  have manyReal : (1488522236 : ℝ) ≤ exponent := by exact_mod_cast many
  have base : (0 : ℝ) < 1 - 1 / 2 ^ 31 := by norm_num
  have total : 1488522236 * (1 / 2 ^ 31 + 1 / 2 ^ 63 - 1 / 2 ^ 90 : ℝ) ≤
      exponent * -log (1 - 1 / 2 ^ 31) :=
    mul_le_mul manyReal neg_log_near.1 (by norm_num) (Nat.cast_nonneg exponent)
  have margin : log (1 - 1 / 2 ^ 35) ≥ -(1 / 10 ^ 10 : ℝ) := by
    have below := one_sub_inv_le_log_of_pos (show (0 : ℝ) < 1 - 1 / 2 ^ 35 by norm_num)
    norm_num at below ⊢
    linarith
  have target : log (1 / 2 - 1 / 2 ^ 36) = -log 2 + log (1 - 1 / 2 ^ 35 : ℝ) := by
    rw [← log_inv, ← log_mul (by norm_num) (by norm_num)]
    norm_num
  rw [← log_le_log_iff (pow_pos base exponent) (by norm_num), log_pow, target]
  norm_num at total logTwo margin ⊢
  linarith

end Threshold

section Hiding

variable {b q : ℕ}

theorem cast_positiveShare :
    (((2 ^ 31 - 1 : ℕ) / (2 ^ 31 : ℕ) : ℚ≥0) : ℝ) = 1 - 1 / 2 ^ 31 := by
  push_cast
  norm_num

theorem half_lt_recoverProbability (pos : ℕ) (prime : q.Prime) (large : 5 ≤ q) (bLt : b < q)
    (short : numBits q < 1488521725) : 1 / 2 < recoverProbability b q pos := by
  have := Fact.mk prime
  have few : numBits q + k - 1 ≤ 1488522235 := by
    simp only [k]
    omega
  rw [recoverProbability]
  refine lt_of_lt_of_le ?_ (dens_recovering_ge (by omega) bLt)
  rw [← NNRat.cast_lt (K := ℝ), NNRat.cast_pow, cast_positiveShare]
  simpa using half_lt_pow few

theorem recoverProbability_le_half (pos : ℕ) (prime : q.Prime) (bLt : b < q)
    (long : 1488521725 ≤ numBits q) : recoverProbability b q pos ≤ 1 / 2 := by
  have := Fact.mk prime
  have many : 1488522236 ≤ numBits q + k - 1 := by
    simp only [k]
    omega
  have huge : 2 ^ 37 ≤ q := Nat.lt_size.mp (lt_of_lt_of_le (by norm_num) long)
  rw [recoverProbability]
  refine le_trans (dens_recovering_le (by omega) bLt) ?_
  have hugeReal : (2 ^ 36 : ℝ) ≤ (q - 1 : ℕ) := by
    have : 2 ^ 36 ≤ q - 1 := by omega
    exact_mod_cast this
  have cancels : ((q - 1 : ℕ) : ℝ)⁻¹ ≤ 1 / 2 ^ 36 := by
    rw [one_div]
    exact inv_anti₀ (by norm_num) hugeReal
  rw [← NNRat.cast_le (K := ℝ), NNRat.cast_add, NNRat.cast_pow, cast_positiveShare,
    NNRat.cast_inv, NNRat.cast_natCast]
  have power := pow_le_half many
  simp only [NNRat.cast_div, NNRat.cast_one, NNRat.cast_ofNat]
  linarith

/--
The probability that adding up the received vector reveals the receiver's input
is at most one half exactly when the prime has at least `1488521725` bits.
-/
theorem recoverProbability_le_half_iff (pos : ℕ) (prime : q.Prime) (large : 5 ≤ q) (bLt : b < q) :
    recoverProbability b q pos ≤ 1 / 2 ↔ 1488521725 ≤ numBits q := by
  constructor
  · intro hidden
    by_contra short
    exact absurd hidden
      (not_le.mpr (half_lt_recoverProbability pos prime large bLt (not_le.mp short)))
  · exact recoverProbability_le_half pos prime bLt

theorem recoverProbability_le_half_iff_five :
    recoverProbability 3 5 0 ≤ 1 / 2 ↔ 1488521725 ≤ numBits 5 :=
  recoverProbability_le_half_iff 0 Nat.prime_five (by norm_num) (by norm_num)

/-- For `q = 5` and `b = 3` the sum of the received vector is usually `3`. -/
theorem recoverProbability_five_gt_half : ¬recoverProbability 3 5 0 ≤ 1 / 2 :=
  not_le.mpr (half_lt_recoverProbability 0 Nat.prime_five (by norm_num) (by norm_num) (by decide))

end Hiding

end PracticalCrypto.Mta
