import Mathlib.FieldTheory.Finite.Basic
import Mathlib.Tactic.ComputeDegree
import PracticalCrypto.Library.BinaryWord

/-!
# The field with 2^128 elements

The field of GCM is the quotient of the binary polynomials by
`x ^ 128 + x ^ 7 + x ^ 2 + x + 1`. Its elements are the words of 128 bits. That
the polynomial is irreducible follows from what repeated squaring does to the
root, which is computed on words.
-/

namespace PracticalCrypto

open Polynomial BinaryWord

section Rabin

variable {p : (ZMod 2)[X]}

theorem irreducible_of_squarings {k : ℕ} (degree : p.natDegree = 2 ^ (k + 1))
    (fixed : AdjoinRoot.root p ^ 2 ^ 2 ^ (k + 1) = AdjoinRoot.root p)
    (moved : IsUnit (AdjoinRoot.root p ^ 2 ^ 2 ^ k - AdjoinRoot.root p)) : Irreducible p := by
  have positive : 0 < p.natDegree := by
    rw [degree]
    positivity
  obtain ⟨q, irreducible, divides⟩ := exists_irreducible_of_natDegree_pos positive
  have : Fact (Irreducible q) := ⟨irreducible⟩
  let basis := AdjoinRoot.powerBasis irreducible.ne_zero
  have : Module.Finite (ZMod 2) (AdjoinRoot q) := basis.finite
  have : Finite (AdjoinRoot q) := Module.finite_of_finite (ZMod 2)
  let frobenius := FiniteField.frobeniusAlgHom (ZMod 2) (AdjoinRoot q)
  have apply_root : ∀ e, (frobenius ^ e) (AdjoinRoot.root q) = AdjoinRoot.root q ^ 2 ^ e := by
    intro e
    simp [frobenius, AlgHom.coe_pow, FiniteField.coe_frobeniusAlgHom, pow_iterate, ZMod.card]
  let quotient := AdjoinRoot.algHomOfDvd (ZMod 2) p q divides
  -- the degree of a factor is the order of the squaring, which divides `2 ^ (k + 1)`
  have order : orderOf frobenius = q.natDegree := by
    rw [FiniteField.orderOf_frobeniusAlgHom, basis.finrank, AdjoinRoot.powerBasis_dim]
  have fixes : frobenius ^ 2 ^ (k + 1) = 1 := by
    apply AdjoinRoot.algHom_ext
    rw [apply_root, AlgHom.one_apply]
    simpa [quotient] using congrArg quotient fixed
  have moves : ¬q.natDegree ∣ 2 ^ k := by
    rw [← order, orderOf_dvd_iff_pow_eq_one]
    intro fixesEarlier
    have same : AdjoinRoot.root q ^ 2 ^ 2 ^ k = AdjoinRoot.root q := by
      rw [← apply_root, fixesEarlier, AlgHom.one_apply]
    have unit := moved.map quotient
    simp [quotient, same] at unit
  obtain ⟨j, inPower, isPower⟩ := (Nat.dvd_prime_pow Nat.prime_two).mp
    (order ▸ orderOf_dvd_of_pow_eq_one fixes)
  have whole : j = k + 1 := by
    by_contra smaller
    apply moves
    rw [isPower]
    exact pow_dvd_pow 2 (by omega)
  have associated : Associated q p := by
    apply associated_of_dvd_of_natDegree_le divides
    · rintro rfl
      simp at positive
    · rw [isPower, degree, whole]
  exact associated.irreducible irreducible

end Rabin

namespace Gf128

/-- The terms of the polynomial of GCM below the leading one. -/
def tail : BitVec 128 := 0x87#128

theorem value_tail {R : Type*} [CommRing R] (x : R) :
    value x tail = x ^ 7 + x ^ 2 + x + 1 := by
  have short : tail = (0x87#8).setWidth 128 := by decide
  rw [short, value_setWidth x _ (by decide)]
  simp [value, Finset.sum_range_succ, BitVec.getLsbD, Nat.testBit]
  ring

/-- The polynomial of GCM. -/
noncomputable def modulus : (ZMod 2)[X] := X ^ 128 + (X ^ 7 + X ^ 2 + X + 1)

theorem modulus_eq : modulus = X ^ 128 + value X tail := by
  rw [value_tail]
  unfold modulus
  congr 1

theorem degree_modulus : modulus.degree = (128 : ℕ) :=
  modulus_eq ▸ degree_X_pow_add_value tail

theorem monic_modulus : modulus.Monic := by
  rw [modulus_eq]
  exact monic_X_pow_add (degree_value_lt tail)

/-- The quotient by the polynomial. -/
abbrev Quotient : Type := AdjoinRoot modulus

noncomputable section

/-- The element that a word stands for. -/
def elem (word : BitVec 128) : Quotient := value (AdjoinRoot.root modulus) word

instance : Nontrivial Quotient := by
  apply AdjoinRoot.nontrivial
  rw [degree_modulus]
  simp

instance : CharP Quotient 2 :=
  charP_of_injective_algebraMap (algebraMap (ZMod 2) Quotient).injective 2

theorem elem_injective : Function.Injective elem := value_root_injective degree_modulus

@[simp]
theorem elem_zero : elem 0#128 = 0 := value_zero _

@[simp]
theorem elem_one : elem 1#128 = 1 := value_one _ (by decide)

@[simp]
theorem elem_xor (a b : BitVec 128) : elem (a ^^^ b) = elem a + elem b := value_xor _ a b

theorem elem_foldl_xor (term : ℕ → BitVec 128) (start : BitVec 128) (n : ℕ) :
    elem ((List.range n).foldl (fun acc k => acc ^^^ term k) start) =
      elem start + ∑ k ∈ Finset.range n, elem (term k) := by
  induction n with
  | zero => simp
  | succ n ih =>
      rw [List.range_succ, List.foldl_append, List.foldl_cons, List.foldl_nil, elem_xor, ih,
        Finset.sum_range_succ, add_assoc]

theorem elem_two : elem 2#128 = AdjoinRoot.root modulus := by
  have short : (2#128) = (2#2).setWidth 128 := by decide
  rw [elem, short, value_setWidth _ _ (by decide)]
  simp [value, Finset.sum_range_succ, BitVec.getLsbD, Nat.testBit]

theorem root_pow :
    AdjoinRoot.root modulus ^ 128 = AdjoinRoot.root modulus ^ 7 + AdjoinRoot.root modulus ^ 2 +
      AdjoinRoot.root modulus + 1 :=
  (root_pow_eq_value modulus_eq).trans (value_tail _)

theorem elem_mulMod (a b : BitVec 128) : elem (mulMod tail a b) = elem a * elem b :=
  value_mulMod (by decide) (root_pow_eq_value modulus_eq) a b

/-- The word of a product in the field is the remainder of the carry-less product. -/
theorem value_eq_modByMonic {a b c : BitVec 128} (product : elem c = elem a * elem b) :
    value X c = value X (clmul a b) %ₘ modulus :=
  value_modByMonic monic_modulus degree_modulus product

section Irreducible

/-- The square of a word. -/
def square (a : BitVec 128) : BitVec 128 := mulMod tail a a

theorem elem_square_iterate (a : BitVec 128) (k : ℕ) : elem (square^[k] a) = elem a ^ 2 ^ k := by
  induction k with
  | zero => simp
  | succ k ih => rw [Function.iterate_succ_apply', square, elem_mulMod, ih, ← pow_two, ← pow_mul,
      pow_succ]

/-- What 64 squarings make of the root. -/
def halfway : BitVec 128 := 0x61651fea6b5832b944e598a795a299f6#128

theorem square_iterate_two : square^[64] 2#128 = halfway := by
  decide +kernel

theorem square_iterate_halfway : square^[64] halfway = 2#128 := by
  decide +kernel

theorem mulMod_inverse :
    mulMod tail 0x9e4af928ddbc838a41a8cafd2c95b018#128 (halfway ^^^ 2#128) = 1#128 := by
  decide +kernel

theorem irreducible_modulus : Irreducible modulus := by
  have half : AdjoinRoot.root modulus ^ 2 ^ 64 = elem halfway := by
    rw [← elem_two, ← elem_square_iterate, square_iterate_two]
  have full : AdjoinRoot.root modulus ^ 2 ^ 128 = AdjoinRoot.root modulus := by
    rw [show (2 : ℕ) ^ 128 = 2 ^ 64 * 2 ^ 64 by norm_num, pow_mul, half, ← elem_square_iterate,
      square_iterate_halfway, elem_two]
  apply irreducible_of_squarings (k := 6)
  · exact natDegree_eq_of_degree_eq_some degree_modulus
  · exact full
  · rw [show (2 : ℕ) ^ 6 = 64 by norm_num, half, CharTwo.sub_eq_add, ← elem_two, ← elem_xor]
    apply IsUnit.of_mul_eq_one_right
    rw [← elem_mulMod, mulMod_inverse, elem_one]

instance : Fact (Irreducible modulus) := ⟨irreducible_modulus⟩

end Irreducible

theorem pow_card (e : Quotient) : e ^ 2 ^ 128 = e := by
  let basis := AdjoinRoot.powerBasis irreducible_modulus.ne_zero
  have : Module.Finite (ZMod 2) Quotient := basis.finite
  have : Finite Quotient := Module.finite_of_finite (ZMod 2)
  have : Fintype Quotient := Fintype.ofFinite Quotient
  have card : Fintype.card Quotient = 2 ^ 128 := by
    rw [Module.card_eq_pow_finrank (K := ZMod 2), ZMod.card, basis.finrank,
      AdjoinRoot.powerBasis_dim, natDegree_eq_of_degree_eq_some degree_modulus]
  rw [← card, FiniteField.pow_card]

end

end Gf128

end PracticalCrypto
