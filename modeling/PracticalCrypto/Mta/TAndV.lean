import Mathlib.Data.ZMod.Basic
import Mathlib.Data.Nat.Size
import Mathlib.Algebra.BigOperators.Fin
import Mathlib.Tactic.Ring

/-!
# The choice bits and the vector of the MtA receiver

This file embeds `MtA::generate_t_and_v_inplace` of `surf-impl/src/mta/MtA.cpp`.
The arrays `t` and `v` have the asserted size `n = BN_num_bits(q) + k`, written
`last + 1` here, so an array is a function on `Fin (last + 1)`. The values of
`rand()`, of `generate_random_vector_inplace` and of `pos` are arguments. Runs
in which an allocation or a random byte source fails return early in the
source and produce no vector; they are not modelled.

The choice bit `true` stands for `+1` and `false` for `-1`. `innerProduct_eq`
is the contract of the header: the signed sum of the produced vector is `b`.
`sum_eq` says what the plain sum is, which is all the sender needs to compute
from the vector it receives in clear.
-/

namespace PracticalCrypto.Mta

/-- `MtA::k`, the statistical security parameter. -/
def k : ℕ := 512

/-- `BN_num_bits`. -/
def numBits (q : ℕ) : ℕ := Nat.size q

def bnModAdd (a b m : ℕ) : ℕ := (a + b) % m

/-- `BN_mod_sub`, whose result is non-negative. -/
def bnModSub (a b m : ℕ) : ℕ := (((a : ℤ) - b) % m).toNat

/-- `std::swap` of two entries of one array. -/
def swapEntries {α : Type} {size : ℕ} (array : Fin size → α) (i j : Fin size) : Fin size → α :=
  array ∘ Equiv.swap i j

structure TAndV (last : ℕ) where
  t : Fin (last + 1) → Bool
  v : Fin (last + 1) → ℕ

variable {last : ℕ}

/-- The loop that accumulates the signed sum of all entries but the last one. -/
def signedTotal (q : ℕ) (t : Fin (last + 1) → Bool) (v : Fin (last + 1) → ℕ) : ℕ :=
  (List.finRange last).foldl
    (fun total i =>
      if t i.castSucc then bnModAdd total (v i.castSucc) q else bnModSub total (v i.castSucc) q)
    0

/-- `generate_t_and_v_inplace`. The assignment `t[i] = rand()` converts an `int` to a `bool`. -/
def generateTAndVInplace (b q : ℕ) (samples rands : Fin (last + 1) → ℕ) (pos : ℕ) :
    TAndV last :=
  let t := fun i => decide (rands i ≠ 0)
  let total := signedTotal q t samples
  let pos := Fin.ofNat (last + 1) (pos % last)
  { t := swapEntries (Function.update t (Fin.last last) true) (Fin.last last) pos
    v := swapEntries (Function.update samples (Fin.last last) (bnModSub b total q))
      (Fin.last last) pos }

/-- What the sender gets by adding up the vector modulo `q`. -/
def senderSum (q : ℕ) (arrays : TAndV last) : ℕ := (∑ i, arrays.v i) % q

def sign (R : Type) [Ring R] (choice : Bool) : R := if choice then 1 else -1

section Arithmetic

variable {q : ℕ}

@[simp]
theorem natCast_bnModAdd (a b : ℕ) : ((bnModAdd a b q : ℕ) : ZMod q) = a + b := by
  simp [bnModAdd]

variable [NeZero q]

@[simp]
theorem natCast_bnModSub (a b : ℕ) : ((bnModSub a b q : ℕ) : ZMod q) = a - b := by
  have nonzero : (q : ℤ) ≠ 0 := by exact_mod_cast NeZero.ne q
  have nonnegative : 0 ≤ ((a : ℤ) - b) % q := Int.emod_nonneg _ nonzero
  have asInt : (((bnModSub a b q : ℕ) : ℤ) : ZMod q) = (((a : ℤ) - b : ℤ) : ZMod q) := by
    rw [bnModSub, Int.toNat_of_nonneg nonnegative, ZMod.intCast_mod]
  simpa using asInt

theorem natCast_foldl_signed (t : Fin (last + 1) → Bool) (v : Fin (last + 1) → ℕ)
    (entries : List (Fin last)) (start : ℕ) :
    ((entries.foldl (fun total i =>
        if t i.castSucc then bnModAdd total (v i.castSucc) q
        else bnModSub total (v i.castSucc) q) start : ℕ) : ZMod q) =
      start + (entries.map fun i => sign (ZMod q) (t i.castSucc) * v i.castSucc).sum := by
  induction entries generalizing start with
  | nil => simp
  | cons i later ih =>
      rw [List.foldl_cons, ih, List.map_cons, List.sum_cons, ← add_assoc]
      congr 1
      cases t i.castSucc with
      | true => simp [sign]
      | false => simp [sign, sub_eq_add_neg]

theorem natCast_signedTotal (t : Fin (last + 1) → Bool) (v : Fin (last + 1) → ℕ) :
    ((signedTotal q t v : ℕ) : ZMod q) =
      ∑ i : Fin last, sign (ZMod q) (t i.castSucc) * v i.castSucc := by
  rw [signedTotal, natCast_foldl_signed, Fin.sum_univ_def]
  simp

variable (b : ℕ) (samples rands : Fin (last + 1) → ℕ) (pos : ℕ)

omit [NeZero q] in
/-- Any sum over the entries of the two arrays does not see where `pos` put the last one. -/
theorem sum_generated {M : Type} [AddCommMonoid M] (term : Bool → ℕ → M) :
    ∑ i, term ((generateTAndVInplace b q samples rands pos).t i)
        ((generateTAndVInplace b q samples rands pos).v i) =
      ∑ i : Fin last, term (decide (rands i.castSucc ≠ 0)) (samples i.castSucc) +
        term true (bnModSub b (signedTotal q (fun i => decide (rands i ≠ 0)) samples) q) := by
  have unswapped := Equiv.sum_comp
    (Equiv.swap (Fin.last last) (Fin.ofNat (last + 1) (pos % last))) fun i =>
      term (Function.update (fun i => decide (rands i ≠ 0)) (Fin.last last) true i)
        (Function.update samples (Fin.last last)
          (bnModSub b (signedTotal q (fun i => decide (rands i ≠ 0)) samples) q) i)
  refine unswapped.trans ?_
  rw [Fin.sum_univ_castSucc]
  simp only [Function.update_self, Function.update_of_ne (Fin.castSucc_lt_last _).ne]

theorem innerProduct_eq :
    ∑ i, sign (ZMod q) ((generateTAndVInplace b q samples rands pos).t i) *
      ((generateTAndVInplace b q samples rands pos).v i : ZMod q) = b := by
  have collected := sum_generated (q := q) b samples rands pos fun choice entry =>
    sign (ZMod q) choice * (entry : ZMod q)
  refine collected.trans ?_
  rw [natCast_bnModSub, natCast_signedTotal]
  simp [sign]

/-- The plain sum is `b` plus twice the entries whose choice bit was drawn as `false`. -/
theorem sum_eq :
    ((∑ i, (generateTAndVInplace b q samples rands pos).v i : ℕ) : ZMod q) =
      b + 2 * ∑ i : Fin last, if rands i.castSucc = 0 then (samples i.castSucc : ZMod q) else 0 := by
  have entrywise : ∀ i : Fin last, (samples i.castSucc : ZMod q) =
      sign (ZMod q) (decide (rands i.castSucc ≠ 0)) * samples i.castSucc +
        2 * if rands i.castSucc = 0 then (samples i.castSucc : ZMod q) else 0 := by
    intro i
    by_cases drawnZero : rands i.castSucc = 0
    · simp only [drawnZero, sign, ne_eq, not_true_eq_false, decide_false, Bool.false_eq_true,
        if_false, if_true]
      ring
    · simp [drawnZero, sign]
  have collected := sum_generated (q := q) b samples rands pos fun _ entry => (entry : ZMod q)
  rw [Nat.cast_sum, collected, natCast_bnModSub, natCast_signedTotal, Finset.mul_sum,
    Finset.sum_congr rfl fun i _ => entrywise i, Finset.sum_add_distrib]
  ring

theorem bnModSub_lt (a b q : ℕ) [NeZero q] : bnModSub a b q < q := by
  have positive : (0 : ℤ) < q := by exact_mod_cast NeZero.pos q
  have reduced := Int.emod_lt_of_pos ((a : ℤ) - b) positive
  have nonnegative := Int.emod_nonneg ((a : ℤ) - b) positive.ne'
  rw [bnModSub]
  omega

variable {samples} in
theorem generated_lt (drawn : ∀ i, samples i < q) (i : Fin (last + 1)) :
    (generateTAndVInplace b q samples rands pos).v i < q := by
  change Function.update samples (Fin.last last) _ (Equiv.swap _ _ i) < q
  rw [Function.update_apply]
  split
  · exact bnModSub_lt _ _ _
  · exact drawn _

end Arithmetic

/-- The vector encodes `b`: wherever `pos` puts the last entry, the entries with the signs of the
choice bits add up to `b`, and every entry is reduced. -/
theorem generateTAndVInplace_encodes {q : ℕ} (positive : 0 < q) (b : ℕ)
    (samples rands : Fin (last + 1) → ℕ) (pos : ℕ) (drawn : ∀ i, samples i < q) :
    (∑ i, if (generateTAndVInplace b q samples rands pos).t i
        then ((generateTAndVInplace b q samples rands pos).v i : ℤ)
        else -((generateTAndVInplace b q samples rands pos).v i : ℤ)) ≡ b [ZMOD q] ∧
      ∀ i, (generateTAndVInplace b q samples rands pos).v i < q := by
  have nonzero : NeZero q := ⟨positive.ne'⟩
  refine ⟨?_, generated_lt b rands pos drawn⟩
  rw [← ZMod.intCast_eq_intCast_iff, Int.cast_sum, Int.cast_natCast]
  refine (Finset.sum_congr rfl fun i _ => ?_).trans (innerProduct_eq b samples rands pos)
  cases (generateTAndVInplace b q samples rands pos).t i <;> simp [sign]

theorem generateTAndVInplace_encodes_three :
    (∑ i, if (generateTAndVInplace 3 5 (fun _ : Fin 3 => 2) (fun i => i.val) 7).t i
        then ((generateTAndVInplace 3 5 (fun _ : Fin 3 => 2) (fun i => i.val) 7).v i : ℤ)
        else -((generateTAndVInplace 3 5 (fun _ : Fin 3 => 2) (fun i => i.val) 7).v i : ℤ)) ≡
          (3 : ℕ) [ZMOD (5 : ℕ)] ∧
      ∀ i, (generateTAndVInplace 3 5 (fun _ : Fin 3 => 2) (fun i => i.val) 7).v i < 5 :=
  generateTAndVInplace_encodes (by decide) 3 (fun _ => 2) (fun i => i.val) 7 (by decide)

end PracticalCrypto.Mta
