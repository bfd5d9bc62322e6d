import PracticalCrypto.Surf.Circuit.GcmShare

/-!
# The naive circuit for the shares of the hash key

This file embeds `DeriveGCMMultiplicativeSharesNaive` of `2pc/DeriveCircuits.cpp`. It
multiplies as the GCM specification states it: the product is summed up bit by bit,
from the coefficient of `x ^ 0` on, while the other factor is multiplied by `x`. On
wires a multiplication by `x` is a shift to the right, and what it drops comes back
as `R`.

All three multiplications of the repository give the remainder of the carry-less
product modulo the polynomial of GCM.
-/

namespace PracticalCrypto.Surf

open Wires F2128Mta Gf128 BinaryWord

section Model

/-- The array `R` of the lambda `mult`. -/
def nistR : List Bool :=
  ((((List.replicate 128 false).set 0 true).set 1 true).set 2 true).set 7 true

/-- A round of the loop of the lambda `mult`, on the arrays `z` and `v`. -/
def naiveRound (y : List Bool) (arrays : List Bool × List Bool) (i : ℕ) :
    List Bool × List Bool :=
  let (z, v) := arrays
  let tmpV := v.map (· && y.getD i false)
  let z := xorWires z tmpV
  let tmpR := (nistR.take 8).map (v.getD 127 false && ·)
  let v := v.rotateRight 1
  let v := v.set 0 false
  let v := xorWires (v.take 8) tmpR ++ v.drop 8
  (z, v)

/-- The lambda `mult` of `DeriveGCMMultiplicativeSharesNaive`. -/
def naiveMult (x y : List Bool) : List Bool :=
  ((List.range 128).foldl (naiveRound y) (List.replicate 128 false, x)).1

/-- `DeriveGCMMultiplicativeSharesNaive`, from the input wires of each party. -/
def deriveGcmMultiplicativeSharesNaive (raw : List Bool → List Bool → List Bool)
    (bob alice : List Bool) : List Bool :=
  let key := xorWires (slice alice 0 128) (slice bob 0 128)
  let gcmKeyRaw := raw key (List.replicate 128 false)
  let prod := naiveMult gcmKeyRaw (slice bob 128 128)
  xorWires prod (slice alice 128 128)

end Model

section Rounds

theorem map_and_ofWord (word : BitVec 128) (bit : Bool) :
    (ofWord word).map (· && bit) = ofWord (if bit then word else 0#128) := by
  cases bit with
  | false =>
      rw [ofWord, List.map_map]
      apply List.map_congr_left
      intro i _
      simp
  | true => simp

/-- The rotation without the wire that comes round is a shift. -/
theorem rotateRight_set_ofWord (word : BitVec 128) :
    ((ofWord word).rotateRight 1).set 0 false = ofWord (word <<< 1) := by
  have last : (ofWord word).drop 127 = [word.getLsbD 127] := by
    have lastIndex : (List.range 128).drop 127 = [127] := by
      decide
    rw [ofWord, ← List.map_drop, lastIndex, List.map_singleton]
  rw [← ofWord_shiftLeft word (by decide), List.rotateRight, length_ofWord, if_neg (by decide)]
  simp [last, slice]

theorem xorWires_take_append {wires others : List Bool} {count : ℕ}
    (sized : wires.length = others.length)
    (zeros : others.drop count = List.replicate (others.length - count) false) :
    xorWires (wires.take count) (others.take count) ++ wires.drop count =
      xorWires wires others := by
  have kept : xorWires (wires.drop count) (others.drop count) = wires.drop count := by
    rw [zeros, xorWires]
    apply List.ext_getElem
    · simp [sized]
    · intro i _ _
      simp
  calc xorWires (wires.take count) (others.take count) ++ wires.drop count =
        (xorWires wires others).take count ++ (xorWires wires others).drop count := by
        nth_rewrite 1 [← kept]
        rw [xorWires, xorWires, xorWires, List.take_zipWith, List.drop_zipWith]
    _ = xorWires wires others := List.take_append_drop _ _

theorem naiveRound_ofWord (b z v : BitVec 128) (i : ℕ) :
    naiveRound (ofWord b) (ofWord z, ofWord v) i =
      (ofWord (if b.getLsbD i then z ^^^ v else z), ofWord (timesX tail v)) := by
  have product : xorWires (ofWord z) ((ofWord v).map (· && b.getLsbD i)) =
      ofWord (if b.getLsbD i then z ^^^ v else z) := by
    rw [map_and_ofWord, xorWires_ofWord]
    split_ifs <;> simp
  have carried : (nistR.take 8).map (v.getLsbD 127 && ·) =
      (ofWord (if v.getLsbD 127 then tail else 0#128)).take 8 := by
    cases v.getLsbD 127 <;> decide
  have upper : (ofWord (if v.getLsbD 127 then tail else 0#128)).drop 8 =
      List.replicate (128 - 8) false := by
    cases v.getLsbD 127 <;> decide
  have factor : xorWires ((ofWord (v <<< 1)).take 8)
      ((ofWord (if v.getLsbD 127 then tail else 0#128)).take 8) ++ (ofWord (v <<< 1)).drop 8 =
        ofWord (timesX tail v) := by
    rw [xorWires_take_append (by simp) (by simpa using upper), xorWires_ofWord, timesX,
      BitVec.msb_eq_getLsbD_last]
    split_ifs <;> simp_all
  simp only [naiveRound, getD_ofWord, product, rotateRight_set_ofWord, carried, factor]

theorem naiveMult_ofWord (a b : BitVec 128) :
    naiveMult (ofWord a) (ofWord b) = ofWord (mulMod tail a b) := by
  have rounds : ∀ (indices : List ℕ) (z v : BitVec 128),
      indices.foldl (naiveRound (ofWord b)) (ofWord z, ofWord v) =
        let out := indices.foldl (fun state i =>
          (if b.getLsbD i then state.1 ^^^ state.2 else state.1, timesX tail state.2)) (z, v)
        (ofWord out.1, ofWord out.2) := by
    intro indices
    induction indices with
    | nil => intro z v; rfl
    | cons i indices ih =>
        intro z v
        rw [List.foldl_cons, List.foldl_cons, naiveRound_ofWord]
        exact ih _ _
  have start : List.replicate 128 false = ofWord 0#128 := by
    decide
  rw [naiveMult, start, rounds]
  rfl

theorem naiveMult_eq (a b : BitVec 128) :
    naiveMult (ofWord a) (ofWord b) = ofWord (mul a b) := by
  have sameProduct : mulMod tail a b = mul a b := by
    apply elem_injective
    rw [elem_mulMod, elem_mul]
  rw [naiveMult_ofWord, sameProduct]

end Rounds

section Products

open Polynomial

/--
`F2128_MTA::mul`, the optimised circuit and the naive circuit compute the same product: the
carry-less product modulo `x ^ 128 + x ^ 7 + x ^ 2 + x + 1`, with bit `i` as the coefficient
of `x ^ i`.
-/
theorem multiplications_agree (a b : BitVec 128) :
    value X (mul a b) = value X (clmul a b) %ₘ modulus ∧
      CircuitSynthesis.gcmMult (ofWord a) (ofWord b) = ofWord (mul a b) ∧
      naiveMult (ofWord a) (ofWord b) = ofWord (mul a b) :=
  ⟨value_eq_modByMonic (elem_mul a b), CircuitSynthesis.gcmMult_ofWord a b, naiveMult_eq a b⟩

/-- The two circuits for the shares of the hash key compute the same function. -/
theorem deriveGcmMultiplicativeSharesNaive_eq {raw : List Bool → List Bool → List Bool}
    (sized : ∀ key input, (raw key input).length = 128) {bob : List Bool}
    (bobSized : bob.length = 256) (alice : List Bool) :
    deriveGcmMultiplicativeSharesNaive raw bob alice =
      deriveGcmMultiplicativeShares raw bob alice := by
  rw [deriveGcmMultiplicativeSharesNaive, deriveGcmMultiplicativeShares]
  rcases exists_ofWord (sized (xorWires (slice alice 0 128) (slice bob 0 128))
    (List.replicate 128 false)) with ⟨hashKey, keyWires⟩
  have maskSized : (slice bob 128 128).length = 128 := by
    rw [length_slice]
    omega
  rcases exists_ofWord maskSized with ⟨mask, maskWires⟩
  simp only [keyWires, maskWires, naiveMult_eq, CircuitSynthesis.gcmMult_ofWord]

/-- A cipher that encrypts every block to the key. -/
def keyCipher (key _block : List Bool) : List Bool := (List.range 128).map fun i => key.getD i false

theorem deriveGcmMultiplicativeSharesNaive_eq_keyCipher :
    deriveGcmMultiplicativeSharesNaive keyCipher
        ((List.range 256).map fun i => decide (i % 2 = 0))
        ((List.range 128).map fun i => decide (i % 3 = 0)) =
      deriveGcmMultiplicativeShares keyCipher
        ((List.range 256).map fun i => decide (i % 2 = 0))
        ((List.range 128).map fun i => decide (i % 3 = 0)) :=
  deriveGcmMultiplicativeSharesNaive_eq (fun _ _ => by simp [keyCipher]) (by simp) _

end Products

end PracticalCrypto.Surf
