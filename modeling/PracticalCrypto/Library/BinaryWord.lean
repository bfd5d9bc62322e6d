import Mathlib.Algebra.CharP.Two
import Mathlib.Algebra.Field.ZMod
import Mathlib.RingTheory.AdjoinRoot
import Mathlib.Tactic.Ring

/-!
# Binary polynomials in machine words

A word of `n` bits stands for a polynomial over the field with two elements, with
bit `i` as the coefficient of `x ^ i`. `value x` evaluates it at an element of a
ring of characteristic two. The xor of words is the sum of their values, and a
shift moves the bits that it drops to a second word.

The multiplication of words modulo a polynomial is correct for every `x` at which
the polynomial vanishes, in particular for the root that `AdjoinRoot` adds, where
words of the degree of the polynomial have different values.
-/

namespace PracticalCrypto.BinaryWord

section Value

variable {R S : Type*} [CommRing R] [CommRing S] {n m : ℕ}

/-- The polynomial with the bits of a word as its coefficients, at `x`. -/
def value (x : R) (word : BitVec n) : R :=
  ∑ i ∈ Finset.range n, if word.getLsbD i then x ^ i else 0

theorem value_eq_sum (x : R) (word : BitVec n) {bound : ℕ} (fits : n ≤ bound) :
    value x word = ∑ i ∈ Finset.range bound, if word.getLsbD i then x ^ i else 0 := by
  apply Finset.sum_subset
  · exact Finset.range_subset_range.mpr fits
  · intro i _ beyond
    have absent : word.getLsbD i = false :=
      BitVec.getLsbD_of_ge word i (not_lt.mp (Finset.mem_range.not.mp beyond))
    simp [absent]

@[simp]
theorem value_zero (x : R) : value x (0#n) = 0 := by
  simp [value]

theorem value_one (x : R) (nonempty : 0 < n) : value x (1#n) = 1 := by
  rw [value, Finset.sum_eq_single_of_mem 0 (Finset.mem_range.mpr nonempty)]
  · simp [nonempty]
  · intro i _ notZero
    simp [BitVec.getLsbD_one, notZero]

theorem value_xor [CharP R 2] (x : R) (a b : BitVec n) :
    value x (a ^^^ b) = value x a + value x b := by
  simp only [value, ← Finset.sum_add_distrib]
  apply Finset.sum_congr rfl
  intro i _
  rw [BitVec.getLsbD_xor]
  cases a.getLsbD i <;> cases b.getLsbD i <;> simp [CharTwo.add_self_eq_zero]

theorem value_append (x : R) (high : BitVec m) (low : BitVec n) :
    value x (high ++ low) = value x low + x ^ n * value x high := by
  rw [value_eq_sum x _ (Nat.add_comm m n).le, Finset.sum_range_add]
  congr 1
  · apply Finset.sum_congr rfl
    intro i inLow
    rw [BitVec.getLsbD_append, if_pos (Finset.mem_range.mp inLow)]
  · rw [value, Finset.mul_sum]
    apply Finset.sum_congr rfl
    intro i _
    have inHigh : ¬n + i < n := by omega
    simp only [BitVec.getLsbD_append, inHigh, if_false, Nat.add_sub_cancel_left, mul_ite, mul_zero,
      pow_add]

theorem value_setWidth (x : R) (word : BitVec n) (wider : n ≤ m) :
    value x (word.setWidth m) = value x word := by
  rw [value_eq_sum x word wider, value]
  apply Finset.sum_congr rfl
  intro i inWord
  rw [BitVec.getLsbD_setWidth, decide_eq_true (Finset.mem_range.mp inWord), Bool.true_and]

/-- What a shift drops is left in the word shifted the other way. -/
theorem value_shiftLeft (x : R) (word : BitVec n) {k : ℕ} (inside : k ≤ n) :
    value x (word <<< k) + x ^ n * value x (word >>> (n - k)) = x ^ k * value x word := by
  obtain ⟨kept, rfl⟩ := Nat.exists_eq_add_of_le inside
  have shifted : value x (word <<< k) =
      ∑ i ∈ Finset.range kept, if word.getLsbD i then x ^ (k + i) else 0 := by
    rw [value, Finset.sum_range_add, Finset.sum_eq_zero, zero_add]
    · apply Finset.sum_congr rfl
      intro i inKept
      have inWord : k + i < k + kept := Nat.add_lt_add_left (Finset.mem_range.mp inKept) k
      simp only [BitVec.getLsbD_shiftLeft, inWord]
      simp
    · intro i inShift
      simp [BitVec.getLsbD_shiftLeft, Finset.mem_range.mp inShift]
  have dropped : value x (word >>> (k + kept - k)) =
      ∑ i ∈ Finset.range k, if word.getLsbD (kept + i) then x ^ i else 0 := by
    rw [value, Finset.sum_range_add, Nat.add_sub_cancel_left]
    simp only [BitVec.getLsbD_ushiftRight]
    rw [Finset.sum_eq_zero (s := Finset.range kept), add_zero]
    intro i _
    rw [BitVec.getLsbD_of_ge word _ (by omega)]
    simp
  have split : value x word = (∑ i ∈ Finset.range kept, if word.getLsbD i then x ^ i else 0) +
      ∑ i ∈ Finset.range k, if word.getLsbD (kept + i) then x ^ (kept + i) else 0 := by
    rw [value_eq_sum x word (Nat.add_comm k kept).le, Finset.sum_range_add]
  rw [shifted, dropped, split, mul_add, Finset.mul_sum, Finset.mul_sum, Finset.mul_sum]
  simp only [mul_ite, mul_zero, ← pow_add, Nat.add_assoc]

theorem map_value (f : R →+* S) (x : R) (word : BitVec n) :
    f (value x word) = value (f x) word := by
  simp only [value, map_sum]
  apply Finset.sum_congr rfl
  intro i _
  cases word.getLsbD i <;> simp

end Value

section Roots

open Polynomial

variable {n : ℕ}

theorem coeff_value (word : BitVec n) (i : ℕ) :
    (value (X : (ZMod 2)[X]) word).coeff i = if word.getLsbD i then 1 else 0 := by
  rw [value_eq_sum X word (Nat.le_add_right n (i + 1)), finsetSum_coeff,
    Finset.sum_eq_single_of_mem i (Finset.mem_range.mpr (by omega))]
  · cases word.getLsbD i <;> simp
  · intro j _ different
    cases word.getLsbD j <;> simp [coeff_X_pow, different.symm]

theorem value_X_injective : Function.Injective (value (X : (ZMod 2)[X]) : BitVec n → _) := by
  intro a b same
  apply BitVec.eq_of_getLsbD_eq
  intro i _
  have sameCoeff := congrArg (fun polynomial => polynomial.coeff i) same
  simp only [coeff_value] at sameCoeff
  cases inA : a.getLsbD i <;> cases inB : b.getLsbD i <;> simp [inA, inB] at sameCoeff ⊢

theorem degree_value_lt (word : BitVec n) : (value (X : (ZMod 2)[X]) word).degree < n := by
  rw [degree_lt_iff_coeff_zero]
  intro i beyond
  rw [coeff_value, BitVec.getLsbD_of_ge word i beyond]
  simp

/-- Words of the degree of the polynomial are the elements of the quotient. -/
theorem value_root_injective {p : (ZMod 2)[X]} (degree : p.degree = n) :
    Function.Injective (value (AdjoinRoot.root p) : BitVec n → _) := by
  intro a b same
  apply value_X_injective
  rw [← AdjoinRoot.mk_X, ← map_value, ← map_value, AdjoinRoot.mk_eq_mk] at same
  apply sub_eq_zero.mp
  apply eq_zero_of_dvd_of_degree_lt same
  rw [degree]
  exact lt_of_le_of_lt (degree_sub_le _ _) (max_lt (degree_value_lt a) (degree_value_lt b))

theorem degree_X_pow_add_value (r : BitVec n) :
    (X ^ n + value (X : (ZMod 2)[X]) r).degree = (n : WithBot ℕ) := by
  have shorter : (value (X : (ZMod 2)[X]) r).degree < (X ^ n : (ZMod 2)[X]).degree := by
    rw [degree_X_pow]
    exact degree_value_lt r
  rw [degree_add_eq_left_of_degree_lt shorter, degree_X_pow]

theorem root_pow_eq_value {p : (ZMod 2)[X]} {r : BitVec n} (isSum : p = X ^ n + value X r) :
    AdjoinRoot.root p ^ n = value (AdjoinRoot.root p) r := by
  have vanishes : AdjoinRoot.mk p (X ^ n + value X r) = 0 := by
    rw [← isSum, AdjoinRoot.mk_self]
  rw [map_add, map_pow, map_value, AdjoinRoot.mk_X, add_eq_zero_iff_eq_neg] at vanishes
  have two : (2 : AdjoinRoot p) = 0 := by
    rw [← map_ofNat (AdjoinRoot.of p) 2, show (OfNat.ofNat 2 : ZMod 2) = 0 from rfl, map_zero]
  rw [vanishes, neg_eq_iff_add_eq_zero, ← two_mul, two, zero_mul]

end Roots

section Multiplication

variable {R W : Type*} [CommRing R] {n : ℕ}

/-- The sums that are made while a factor is doubled `k` times. -/
theorem foldl_double {x : R} (val : W → R) {add : W → W → W} {double : W → W}
    (val_add : ∀ a b, val (add a b) = val a + val b) (val_double : ∀ a, val (double a) = x * val a)
    (bit : ℕ → Bool) (z v : W) (k : ℕ) :
    let out := (List.range k).foldl
      (fun (z, v) i => (if bit i then add z v else z, double v)) (z, v)
    val out.1 = val z + (∑ i ∈ Finset.range k, if bit i then x ^ i else 0) * val v ∧
      val out.2 = x ^ k * val v := by
  induction k with
  | zero => simp
  | succ k ih =>
      obtain ⟨sum, doubled⟩ := ih
      simp only [List.range_succ, List.foldl_append, List.foldl_cons, List.foldl_nil,
        Finset.sum_range_succ]
      constructor
      · split_ifs
        · rw [val_add, sum, doubled]
          ring
        · rw [sum, add_zero]
      · rw [val_double, doubled, pow_succ]
        ring

/-- Multiplication by `x` modulo `x ^ n - value x r`. -/
def timesX (r a : BitVec n) : BitVec n := if a.msb then a <<< 1 ^^^ r else a <<< 1

/-- Multiplication modulo `x ^ n - value x r`, from the lowest bit of `b` on. -/
def mulMod (r a b : BitVec n) : BitVec n :=
  ((List.range n).foldl
    (fun (z, v) i => (if b.getLsbD i then z ^^^ v else z, timesX r v)) (0#n, a)).1

variable [CharP R 2] {x : R} {r : BitVec n}

theorem value_timesX (nonempty : 0 < n) (root : x ^ n = value x r) (a : BitVec n) :
    value x (timesX r a) = x * value x a := by
  have carry : a >>> (n - 1) = if a.msb then 1#n else 0#n := by
    apply BitVec.eq_of_getLsbD_eq
    intro i inWord
    rw [BitVec.getLsbD_ushiftRight]
    cases top : a.msb with
    | false =>
        rw [BitVec.msb_eq_getLsbD_last] at top
        rcases Nat.eq_zero_or_pos i with rfl | positive
        · simpa using top
        · rw [BitVec.getLsbD_of_ge a _ (by omega)]
          simp
    | true =>
        rw [BitVec.msb_eq_getLsbD_last] at top
        rcases Nat.eq_zero_or_pos i with rfl | positive
        · simpa [nonempty] using top
        · rw [BitVec.getLsbD_of_ge a _ (by omega)]
          simp [BitVec.getLsbD_one, positive.ne']
  have shifted := value_shiftLeft x a nonempty
  rw [carry, pow_one] at shifted
  rw [← shifted, timesX]
  split_ifs with top
  · rw [value_xor, value_one x nonempty, root, mul_one]
  · simp

theorem value_mulMod (nonempty : 0 < n) (root : x ^ n = value x r) (a b : BitVec n) :
    value x (mulMod r a b) = value x a * value x b := by
  have sums := (foldl_double (value x) (value_xor x) (value_timesX nonempty root) b.getLsbD
    0#n a n).1
  rw [value_zero, zero_add, mul_comm] at sums
  exact sums

/-- The carry-less product of two words. -/
def clmul (a b : BitVec n) : BitVec (n + n) :=
  (List.range n).foldl
    (fun acc i => if b.getLsbD i then acc ^^^ a.setWidth (n + n) <<< i else acc) 0#(n + n)

omit [CharP R 2] in
theorem value_setWidth_shiftLeft (x : R) (a : BitVec n) {k : ℕ} (inside : k ≤ n) :
    value x (a.setWidth (n + n) <<< k) = x ^ k * value x a := by
  have nothingDropped : a.setWidth (n + n) >>> (n + n - k) = 0#(n + n) := by
    apply BitVec.eq_of_getLsbD_eq
    intro i _
    rw [BitVec.getLsbD_ushiftRight, BitVec.getLsbD_setWidth, BitVec.getLsbD_of_ge a _ (by omega)]
    simp
  have shifted := value_shiftLeft x (a.setWidth (n + n)) (k := k) (by omega)
  rw [nothingDropped, value_zero, mul_zero, add_zero] at shifted
  rw [shifted, value_setWidth x a (by omega)]

theorem value_clmul (x : R) (a b : BitVec n) : value x (clmul a b) = value x a * value x b := by
  have steps : ∀ k ≤ n, value x ((List.range k).foldl (fun acc i =>
      if b.getLsbD i then acc ^^^ a.setWidth (n + n) <<< i else acc) 0#(n + n)) =
        value x a * ∑ i ∈ Finset.range k, if b.getLsbD i then x ^ i else 0 := by
    intro k
    induction k with
    | zero => simp
    | succ k ih =>
        intro inside
        simp only [List.range_succ, List.foldl_append, List.foldl_cons, List.foldl_nil,
          Finset.sum_range_succ]
        split_ifs
        · rw [value_xor, ih (by omega), value_setWidth_shiftLeft x a (by omega)]
          ring
        · rw [ih (by omega), add_zero]
  exact steps n le_rfl

end Multiplication

section Remainder

open Polynomial

variable {n : ℕ}

/-- A product at the root of a polynomial is the remainder of the carry-less product. -/
theorem value_modByMonic {p : (ZMod 2)[X]} (monic : p.Monic) (degree : p.degree = n)
    {a b c : BitVec n} (product : value (AdjoinRoot.root p) c =
      value (AdjoinRoot.root p) a * value (AdjoinRoot.root p) b) :
    value X c = value X (clmul a b) %ₘ p := by
  rw [← AdjoinRoot.mk_X, ← map_value, ← map_value, ← map_value, ← map_mul,
    AdjoinRoot.mk_eq_mk] at product
  have reduced : value X c %ₘ p = value X c := by
    apply (modByMonic_eq_self_iff monic).mpr
    rw [degree]
    exact degree_value_lt c
  calc value X c = value X c %ₘ p := reduced.symm
    _ = (value X a * value X b) %ₘ p := modByMonic_eq_of_dvd_sub monic product
    _ = value X (clmul a b) %ₘ p := by rw [value_clmul]

end Remainder

end PracticalCrypto.BinaryWord
