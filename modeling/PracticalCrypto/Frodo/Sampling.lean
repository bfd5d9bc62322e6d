import PracticalCrypto.Frodo.Masking
import PracticalCrypto.Library.Rejection

/-!
# The ternary samples of the client

This file embeds the module `sampling` of `pir/src/utils.rs`. The words that the
operating system returns are an argument, and `none` means that they ran out before
the sampler was done.

The three intervals are closed at their upper ends, and the first one starts at zero,
so it holds one word more than the others. No sample but the empty vector is uniform.
-/

namespace PracticalCrypto.Frodo

open Filter Topology

section Model

/-- `TERNARY_INTERVAL_SIZE`: `(u32::MAX - 2) / 3`. -/
def ternaryIntervalSize : UInt32 := (4294967295 - 2) / 3

/-- `TERNARY_REJECTION_SAMPLING_MAX`. -/
def ternaryRejectionSamplingMax : UInt32 := ternaryIntervalSize * 3

/-- A round of the loop of `random_ternary`; `none` rejects the word. -/
def ternaryOf (val : UInt32) : Option UInt32 :=
  if val ≤ ternaryRejectionSamplingMax then
    some (if val ≤ ternaryIntervalSize then 0
      else if val ≤ ternaryIntervalSize * 2 then 1
      else 4294967295)
  else none

/-- `random_ternary`, with the words that are left. -/
def randomTernary (words : List UInt32) : Option (UInt32 × List UInt32) :=
  Rejection.draw ternaryOf words

/-- `random_ternary_vector`. -/
def randomTernaryVector (width : ℕ) (words : List UInt32) : Option (List UInt32) :=
  if width = 0 then some [] else Rejection.draws ternaryOf width words

instance fintypeUInt32 : Fintype UInt32 :=
  Fintype.ofEquiv (Fin UInt32.size)
    ⟨UInt32.ofFin, UInt32.toFin, fun _ => rfl, fun _ => rfl⟩

/-- The probability that `random_ternary` returns the value within `n` uniform words. -/
def ternaryProbability (n : ℕ) (value : UInt32) : ℚ≥0 :=
  (Finset.univ.filter fun words : Fin n → UInt32 =>
    (randomTernary (List.ofFn words)).map Prod.fst = some value).dens

/-- The probability that `random_ternary_vector` returns the values within `n` uniform words. -/
def vectorProbability (width n : ℕ) (values : List UInt32) : ℚ≥0 :=
  (Finset.univ.filter fun words : Fin n → UInt32 =>
    randomTernaryVector width (List.ofFn words) = some values).dens

end Model

section Classes

theorem card_uint32 : Fintype.card UInt32 = 2 ^ 32 := by
  rw [Fintype.card_congr ⟨UInt32.toFin, UInt32.ofFin, fun _ => rfl, fun _ => rfl⟩,
    Fintype.card_fin]
  rfl

theorem card_interval {P : UInt32 → Prop} [DecidablePred P] (lower upper : ℕ)
    (inWords : upper ≤ 2 ^ 32) (within : ∀ word, P word ↔ lower ≤ word.toNat ∧ word.toNat < upper) :
    (Finset.univ.filter P).card = upper - lower := by
  rw [← Nat.card_Ico]
  apply Finset.card_nbij' UInt32.toNat UInt32.ofNat
  · intro word member
    simpa [within] using member
  · intro number member
    have bounds := Finset.mem_Ico.mp member
    have small : number < 2 ^ 32 := by omega
    simpa [within, UInt32.toNat_ofNat_of_lt' small] using bounds
  · intro word _
    exact UInt32.ofNat_toNat
  · intro number member
    have bounds := Finset.mem_Ico.mp member
    have small : number < 2 ^ 32 := by omega
    exact UInt32.toNat_ofNat_of_lt' small

theorem ternaryOf_eq (val : UInt32) :
    ternaryOf val =
      if val.toNat < 1431655765 then some 0
      else if val.toNat < 2863311529 then some 1
      else if val.toNat < 4294967293 then some 4294967295
      else none := by
  have maximum : ternaryRejectionSamplingMax = 4294967292 := by decide
  have size : ternaryIntervalSize = 1431655764 := by decide
  have double : (1431655764 * 2 : UInt32) = 2863311528 := by decide
  simp only [ternaryOf, maximum, size, double, UInt32.le_iff_toNat_le, UInt32.reduceToNat]
  split_ifs <;> first | rfl | omega

theorem card_wordsOf_zero : (Rejection.wordsOf ternaryOf 0).card = 1431655765 := by
  refine card_interval 0 1431655765 (by norm_num) fun word => ?_
  rw [ternaryOf_eq]
  split_ifs <;> simp <;> omega

theorem card_wordsOf_one : (Rejection.wordsOf ternaryOf 1).card = 1431655764 := by
  refine card_interval 1431655765 2863311529 (by norm_num) fun word => ?_
  rw [ternaryOf_eq]
  split_ifs <;> simp <;> omega

theorem card_wordsOf_minus_one : (Rejection.wordsOf ternaryOf 4294967295).card = 1431655764 := by
  refine card_interval 2863311529 4294967293 (by norm_num) fun word => ?_
  rw [ternaryOf_eq]
  split_ifs <;> simp <;> omega

theorem card_rejectedWords : (Rejection.rejectedWords ternaryOf).card = 3 := by
  refine card_interval 4294967293 4294967296 (by norm_num) fun word => ?_
  have bound := word.toNat_lt
  rw [ternaryOf_eq]
  split_ifs <;> simp <;> omega

end Classes

theorem randomTernaryVector_ternary {width : ℕ} {words values : List UInt32}
    (drawn : randomTernaryVector width words = some values) :
    ∃ vector : TernaryVector width, vector.values = values := by
  have sampled : Rejection.draws ternaryOf width words = some values := by
    rw [randomTernaryVector] at drawn
    split at drawn
    case isTrue empty =>
      subst empty
      exact drawn
    case isFalse => exact drawn
  rcases Rejection.draws_classify sampled with ⟨size, classified⟩
  refine ⟨⟨values, size, ?_⟩, rfl⟩
  intro value member
  rcases classified value member with ⟨word, accepted⟩
  rw [ternaryOf_eq] at accepted
  split_ifs at accepted <;> cases accepted <;> simp

section Law

theorem rejectedWords_dens :
    ((Rejection.rejectedWords ternaryOf).dens : ℝ) = 3 / 2 ^ 32 := by
  rw [Finset.dens_eq_card_div_card, card_rejectedWords, card_uint32]
  norm_num

theorem rejectedWords_dens_lt_one : (Rejection.rejectedWords ternaryOf).dens < 1 := by
  have below : ((Rejection.rejectedWords ternaryOf).dens : ℝ) < 1 := by
    rw [rejectedWords_dens]
    norm_num
  exact_mod_cast below

theorem share_eq (value : UInt32) :
    ((Rejection.wordsOf ternaryOf value).dens /
        (1 - (Rejection.rejectedWords ternaryOf).dens) : ℝ) =
      (Rejection.wordsOf ternaryOf value).card / 4294967293 := by
  have accepted : (1 - 3 / 2 ^ 32 : ℝ) = 4294967293 / 4294967296 := by norm_num
  have words : ((2 ^ 32 : ℕ) : ℝ) = 4294967296 := by norm_num
  rw [rejectedWords_dens, Finset.dens_eq_card_div_card, card_uint32, NNRat.cast_div,
    NNRat.cast_natCast, NNRat.cast_natCast, accepted, words]
  exact div_div_div_cancel_right₀ (by norm_num) _ _

theorem vectorProbability_eq {width : ℕ} {values : List UInt32} (sized : values.length = width)
    (n : ℕ) :
    vectorProbability width n values = Rejection.probabilityWithin ternaryOf n values := by
  subst sized
  rw [vectorProbability, Rejection.probabilityWithin, Rejection.returning]
  congr 1
  apply Finset.filter_congr
  intro words _
  rw [randomTernaryVector]
  split
  case isTrue empty => rw [List.length_eq_zero_iff.mp empty]; rfl
  case isFalse => rfl

theorem ternaryProbability_eq (n : ℕ) (value : UInt32) :
    ternaryProbability n value = Rejection.probabilityWithin ternaryOf n [value] := by
  rw [ternaryProbability, Rejection.probabilityWithin, Rejection.returning]
  congr 1
  apply Finset.filter_congr
  intro words _
  rw [randomTernary, List.length_singleton, Rejection.draws]
  cases Rejection.draw ternaryOf (List.ofFn words) with
  | none => simp
  | some drawn => simp [Rejection.draws]

theorem ternaryProbability_tendsto (value : UInt32) :
    Tendsto (fun n => (ternaryProbability n value : ℝ)) atTop
      (𝓝 ((Rejection.wordsOf ternaryOf value).card / 4294967293)) := by
  have law := Rejection.hasProbability_prod rejectedWords_dens_lt_one [value]
  simp only [List.map_singleton, List.prod_singleton, share_eq] at law
  simpa only [Rejection.HasProbability, ← ternaryProbability_eq] using law

theorem vectorProbability_tendsto {width : ℕ} (vector : TernaryVector width) :
    Tendsto (fun n => (vectorProbability width n vector.values : ℝ)) atTop
      (𝓝 (vector.values.map fun value =>
        ((Rejection.wordsOf ternaryOf value).card / 4294967293 : ℝ)).prod) := by
  have law := Rejection.hasProbability_prod rejectedWords_dens_lt_one vector.values
  simp only [share_eq] at law
  simpa only [Rejection.HasProbability, vectorProbability_eq vector.length_eq] using law

/--
The sample of `random_ternary` follows the sizes of the three classes, of which the one of
zero is larger by one word, and `random_ternary_vector` is uniform for the empty vector only.
-/
theorem randomTernaryVector_uniform_iff (width : ℕ) :
    (∀ value, Tendsto (fun n => (ternaryProbability n value : ℝ)) atTop
      (𝓝 ((Rejection.wordsOf ternaryOf value).card / 4294967293))) ∧
    ((Rejection.wordsOf ternaryOf 0).card = (Rejection.wordsOf ternaryOf 1).card + 1 ∧
      (Rejection.wordsOf ternaryOf 1).card = (Rejection.wordsOf ternaryOf 4294967295).card) ∧
    ((∀ vector : TernaryVector width,
      Tendsto (fun n => (vectorProbability width n vector.values : ℝ)) atTop
        (𝓝 ((1 / 3) ^ width))) ↔ width = 0) := by
  refine ⟨ternaryProbability_tendsto, ⟨?_, ?_⟩, ?_, ?_⟩
  · rw [card_wordsOf_zero, card_wordsOf_one]
  · rw [card_wordsOf_one, card_wordsOf_minus_one]
  · intro uniform
    by_contra notEmpty
    -- the vector of zeros is too likely
    let zeros : TernaryVector width := ⟨List.replicate width 0, List.length_replicate, by
      intro value member
      exact .inl (List.eq_of_mem_replicate member)⟩
    have same := tendsto_nhds_unique (uniform zeros) (vectorProbability_tendsto zeros)
    simp only [zeros, List.map_replicate, List.prod_replicate, card_wordsOf_zero] at same
    have larger : (1 / 3 : ℝ) ^ width < ((1431655765 : ℕ) / 4294967293 : ℝ) ^ width := by
      apply pow_lt_pow_left₀ _ (by norm_num) notEmpty
      norm_num
    exact absurd same larger.ne
  · rintro rfl vector
    have empty : vector.values = [] := List.length_eq_zero_iff.mp vector.length_eq
    have law := vectorProbability_tendsto vector
    rw [empty] at law ⊢
    simpa only [List.map_nil, List.prod_nil, pow_zero] using law

/-- A sample is zero more often than one, and one as often as minus one. -/
theorem randomTernary_biased :
    Tendsto (fun n => (ternaryProbability n 0 : ℝ)) atTop (𝓝 (1431655765 / 4294967293)) ∧
      Tendsto (fun n => (ternaryProbability n 1 : ℝ)) atTop (𝓝 (1431655764 / 4294967293)) ∧
      Tendsto (fun n => (ternaryProbability n 4294967295 : ℝ)) atTop
        (𝓝 (1431655764 / 4294967293)) := by
  have zero := ternaryProbability_tendsto 0
  have one := ternaryProbability_tendsto 1
  have minusOne := ternaryProbability_tendsto 4294967295
  rw [card_wordsOf_zero] at zero
  rw [card_wordsOf_one] at one
  rw [card_wordsOf_minus_one] at minusOne
  exact ⟨by exact_mod_cast zero, by exact_mod_cast one, by exact_mod_cast minusOne⟩

end Law

end PracticalCrypto.Frodo
