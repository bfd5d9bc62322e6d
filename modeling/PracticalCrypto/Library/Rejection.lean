import Mathlib.Data.Finset.Density
import Mathlib.Data.Fintype.BigOperators
import Mathlib.Data.NNRat.BigOperators
import Mathlib.Topology.Algebra.Order.LiminfLimsup
import Mathlib.Topology.MetricSpace.Basic
import Mathlib.Analysis.SpecificLimits.Basic

/-!
# Rejection sampling

A sampler reads words until one is accepted and returns the class of that word.
Several draws read one stream of words, each from where the last one stopped. With
independent uniform words the probability that the draws return given classes within
the first `n` words is the density of a set of word sequences. It grows with `n`, and
its limit is the product, over the classes, of the share that each of them has among
the accepted words.
-/

namespace PracticalCrypto.Rejection

open Filter Topology

universe u v

section Sampler

variable {α : Type u} {β : Type v} (classify : α → Option β)

/-- Read words until one is accepted; `none` when the words run out. -/
def draw : List α → Option (β × List α)
  | [] => none
  | word :: words =>
      match classify word with
      | none => draw words
      | some value => some (value, words)

/-- Draws one after the other from the same words. -/
def draws : ℕ → List α → Option (List β)
  | 0, _ => some []
  | count + 1, words =>
      match draw classify words with
      | none => none
      | some (value, rest) => (draws count rest).map (value :: ·)

variable {classify} {word : α}

theorem draws_cons_rejected (rejected : classify word = none) (count : ℕ) (words : List α) :
    draws classify (count + 1) (word :: words) = draws classify (count + 1) words := by
  simp only [draws, draw, rejected]

theorem draws_cons_accepted {value : β} (accepted : classify word = some value) (count : ℕ)
    (words : List α) :
    draws classify (count + 1) (word :: words) =
      (draws classify count words).map (value :: ·) := by
  simp only [draws, draw, accepted]

theorem draw_classify {words rest : List α} {value : β}
    (drawn : draw classify words = some (value, rest)) :
    ∃ word, classify word = some value := by
  induction words with
  | nil => cases drawn
  | cons word words ih =>
      rw [draw] at drawn
      split at drawn
      · exact ih drawn
      · cases drawn
        exact ⟨word, ‹_›⟩

theorem draws_classify {count : ℕ} {words : List α} {values : List β}
    (drawn : draws classify count words = some values) :
    values.length = count ∧ ∀ value ∈ values, ∃ word, classify word = some value := by
  induction count generalizing words values with
  | zero =>
      cases drawn
      simp
  | succ count ih =>
      rw [draws] at drawn
      split at drawn
      · cases drawn
      · rename_i value rest first
        rcases Option.map_eq_some_iff.mp drawn with ⟨later, drawnLater, rfl⟩
        rcases ih drawnLater with ⟨size, classified⟩
        refine ⟨by simp [size], ?_⟩
        intro found member
        rcases List.mem_cons.mp member with rfl | inLater
        · exact draw_classify first
        · exact classified found inLater

end Sampler

section Law

variable {α : Type u} {β : Type v} [Fintype α] [DecidableEq β] (classify : α → Option β)

/-- The words of a class. -/
def wordsOf (value : β) : Finset α := Finset.univ.filter fun word => classify word = some value

def rejectedWords : Finset α := Finset.univ.filter fun word => classify word = none

/-- The sequences of `n` words in which the draws return the values. -/
def returning (n : ℕ) (values : List β) : Finset (Fin n → α) :=
  Finset.univ.filter fun words => draws classify values.length (List.ofFn words) = some values

/-- The probability that the draws return the values within `n` words. -/
def probabilityWithin (n : ℕ) (values : List β) : ℚ≥0 := (returning classify n values).dens

/-- The probability that the draws return the values, however many words they read. -/
def HasProbability (values : List β) (probability : ℝ) : Prop :=
  Tendsto (fun n => (probabilityWithin classify n values : ℝ)) atTop (𝓝 probability)

variable {classify}

/-- The first word is rejected, or it is of the class of the first value. -/
theorem card_returning_succ (n : ℕ) (value : β) (values : List β) :
    (returning classify (n + 1) (value :: values)).card =
      (rejectedWords classify).card * (returning classify n (value :: values)).card +
        (wordsOf classify value).card * (returning classify n values).card := by
  have perWord : ∀ word : α,
      (Finset.univ.filter fun words : Fin n → α =>
        draws classify (values.length + 1) (word :: List.ofFn words) =
          some (value :: values)).card =
      (if classify word = none then (returning classify n (value :: values)).card else 0) +
        if classify word = some value then (returning classify n values).card else 0 := by
    intro word
    rcases outcome : classify word with _ | found
    · simp [draws_cons_rejected outcome, returning]
    · by_cases same : found = value
      · subst same
        simp only [draws_cons_accepted outcome, reduceCtorEq, if_false, if_true, zero_add]
        congr 1
        ext words
        simp [returning]
      · simp [draws_cons_accepted outcome, same]
  have byFirst : (returning classify (n + 1) (value :: values)).card =
      ∑ word : α, (Finset.univ.filter fun words : Fin n → α =>
        draws classify (values.length + 1) (word :: List.ofFn words) =
          some (value :: values)).card := by
    simp only [returning, Finset.card_filter]
    rw [← (Fin.consEquiv fun _ => α).sum_comp, Fintype.sum_prod_type]
    simp [Fin.consEquiv]
  rw [byFirst, Finset.sum_congr rfl fun word _ => perWord word, Finset.sum_add_distrib,
    ← Finset.sum_filter, ← Finset.sum_filter, Finset.sum_const, Finset.sum_const]
  simp [rejectedWords, wordsOf]

theorem probabilityWithin_nil [Nonempty α] (n : ℕ) : probabilityWithin classify n [] = 1 := by
  simp [probabilityWithin, returning, draws]

theorem probabilityWithin_zero (value : β) (values : List β) :
    probabilityWithin classify 0 (value :: values) = 0 := by
  simp [probabilityWithin, returning, draws, draw]

theorem probabilityWithin_succ (n : ℕ) (value : β) (values : List β) :
    probabilityWithin classify (n + 1) (value :: values) =
      (rejectedWords classify).dens * probabilityWithin classify n (value :: values) +
        (wordsOf classify value).dens * probabilityWithin classify n values := by
  simp only [probabilityWithin, Finset.dens_eq_card_div_card, card_returning_succ]
  rw [Fintype.card_fun, Fintype.card_fun, Fintype.card_fin, Fintype.card_fin, pow_succ]
  push_cast
  rw [div_mul_div_comm, div_mul_div_comm, ← add_div, mul_comm (_ ^ n)]

theorem probabilityWithin_le_succ [Nonempty α] (n : ℕ) (values : List β) :
    probabilityWithin classify n values ≤ probabilityWithin classify (n + 1) values := by
  induction n generalizing values with
  | zero =>
      cases values with
      | nil => simp [probabilityWithin_nil]
      | cons value values => simp [probabilityWithin_zero]
  | succ n ih =>
      cases values with
      | nil => simp [probabilityWithin_nil]
      | cons value values =>
          rw [probabilityWithin_succ, probabilityWithin_succ]
          gcongr
          · exact ih _
          · exact ih _

theorem hasProbability_nil [Nonempty α] : HasProbability classify [] 1 := by
  simp [HasProbability, probabilityWithin_nil]

/-- The share of a class among the accepted words is a factor of the probability. -/
theorem HasProbability.cons [Nonempty α] {values : List β} {probability : ℝ}
    (later : HasProbability classify values probability)
    (accepts : (rejectedWords classify).dens < 1) (value : β) :
    HasProbability classify (value :: values)
      ((wordsOf classify value).dens / (1 - (rejectedWords classify).dens) * probability) := by
  have increasing : Monotone fun n => (probabilityWithin classify n (value :: values) : ℝ) := by
    apply monotone_nat_of_le_succ
    intro n
    exact_mod_cast probabilityWithin_le_succ n (value :: values)
  have bounded : BddAbove (Set.range fun n =>
      (probabilityWithin classify n (value :: values) : ℝ)) := by
    refine ⟨1, ?_⟩
    rintro _ ⟨n, rfl⟩
    have atMostOne : probabilityWithin classify n (value :: values) ≤ 1 := Finset.dens_le_one
    change (probabilityWithin classify n (value :: values) : ℝ) ≤ 1
    exact_mod_cast atMostOne
  have converges := tendsto_atTop_ciSup increasing bounded
  -- the limit solves the recurrence
  have shifted := (tendsto_add_atTop_iff_nat 1).mpr converges
  simp only [probabilityWithin_succ, NNRat.cast_add, NNRat.cast_mul] at shifted
  have solved := tendsto_nhds_unique shifted
    ((converges.const_mul _).add (Tendsto.const_mul _ later))
  have positive : (0 : ℝ) < 1 - (rejectedWords classify).dens := by
    have : ((rejectedWords classify).dens : ℝ) < 1 := by exact_mod_cast accepts
    linarith
  have limit : (⨆ n, (probabilityWithin classify n (value :: values) : ℝ)) =
      (wordsOf classify value).dens / (1 - (rejectedWords classify).dens) * probability := by
    rw [div_mul_eq_mul_div, eq_div_iff positive.ne']
    linarith
  rw [← limit]
  exact converges

theorem hasProbability_prod [Nonempty α] (accepts : (rejectedWords classify).dens < 1)
    (values : List β) :
    HasProbability classify values (values.map fun value =>
      ((wordsOf classify value).dens / (1 - (rejectedWords classify).dens) : ℝ)).prod := by
  induction values with
  | nil => simpa using hasProbability_nil
  | cons value values ih => simpa using ih.cons accepts value

end Law

end PracticalCrypto.Rejection
