import PracticalCrypto.Frodo.Protocol

/-!
# What masks the queries of a FrodoPIR client

Row `k` of `B` is meant to be `s_k * A + e_k` and row `k` of `C` is meant to be
`s_k * H`, for the ternary vectors the client samples. `ofSecrets_rows` shows
that the part of `ClientParams::new` after the sampling computes exactly this
from the rows of `S` and `E`.

The sampling loops extend vectors that were created with `queries * dim` and
`queries * m` zeros, and the kernels only read that many elements. So the rows
of `S` and `E` are zero whatever was sampled, and the masks are the intended
ones exactly when those are zero themselves.
-/

namespace PracticalCrypto.Frodo

open RowMajor

/-- A vector that `random_ternary_vector` can return: entries in `{0, 1, u32::MAX}`. -/
structure TernaryVector (width : ℕ) where
  values : List UInt32
  length_eq : values.length = width
  ternary : ∀ value ∈ values, value = 0 ∨ value = 1 ∨ value = 4294967295

namespace FlatMatrix

variable {self : FlatMatrix} {rows cols : ℕ}

def vecMul (vector : List UInt32) (matrix : FlatMatrix) : List UInt32 :=
  (List.range matrix.cols).map fun j =>
    ∑ l ∈ Finset.range matrix.rows, vector.getD l 0 * matrix.entry l j

theorem vecMul_ofFn (covers : self.Covers rows cols) (vector : Fin rows → UInt32) :
    vecMul (List.ofFn vector) self =
      List.ofFn (Matrix.vecMul vector (self.toMatrix rows cols)) := by
  apply List.ext_getElem
  · simp [vecMul, covers.cols_eq]
  · intro j jLt _
    have inCols : j < cols := by simpa [vecMul, covers.cols_eq] using jLt
    simp only [vecMul, List.getElem_map, List.getElem_range, List.getElem_ofFn, Matrix.vecMul,
      dotProduct, covers.rows_eq, Finset.sum_range]
    apply Finset.sum_congr rfl
    intro l _
    rw [toMatrix_eq_entry covers l ⟨j, inCols⟩]
    simp [List.getD_eq_getElem?_getD]

theorem vecMul_zero (length : ℕ) (matrix : FlatMatrix) :
    vecMul (List.replicate length 0) matrix = List.replicate matrix.cols 0 := by
  apply List.ext_getElem
  · simp [vecMul]
  · intro j _ _
    simp only [vecMul, List.getElem_map, List.getElem_range, List.getElem_replicate]
    apply Finset.sum_eq_zero
    intro l _
    have readsZero : (List.replicate length (0 : UInt32)).getD l 0 = 0 := by
      by_cases inside : l < length
      · simp [List.getD_eq_getElem?_getD, inside]
      · simp [List.getD_eq_getElem?_getD, inside]
    rw [readsZero, zero_mul]

/-- A matrix wrapped around a zero prefix of its own size has zero rows, whatever follows. -/
theorem withVector_zero_prefix (rest : List UInt32) (rowsPos : 0 < rows) (colsPos : 0 < cols) :
    ∃ result, withVector (List.replicate (rows * cols) 0 ++ rest) rows cols = some result ∧
      result.Covers rows cols ∧ ∀ index < rows, result.rowAt index = List.replicate cols 0 := by
  refine ⟨_, withVector_eq _ rowsPos colsPos, ⟨rfl, rfl, rfl, rowsPos, colsPos, by simp⟩, ?_⟩
  intro index indexLt
  have within : (index + 1) * cols ≤ rows * cols := Nat.mul_le_mul_right cols indexLt
  have split : (index + 1) * cols = index * cols + cols := Nat.succ_mul index cols
  have left : index * cols - rows * cols = 0 := by omega
  have enough : cols - (rows * cols - index * cols) = 0 := by omega
  have short : min cols (rows * cols - index * cols) = cols := by omega
  simp [rowAt, row, List.drop_append, List.take_append, left, enough, short]

end FlatMatrix

section Masks

variable {p m w dim queries : ℕ} {A S E H : FlatMatrix}

/-- The masks of query `k` are the intended ones for the secret `s` and the error `e`. -/
structure Masked (params : ClientParams) (A H : FlatMatrix) (s e : List UInt32) (k : ℕ) :
    Prop where
  b_eq : params.B.rowAt k = List.zipWith (· + ·) (FlatMatrix.vecMul s A) e
  c_eq : params.C.rowAt k = FlatMatrix.vecMul s H

theorem ofSecrets_rows (aShape : A.HasShape dim m) (sCovers : S.Covers queries dim)
    (eCovers : E.Covers queries m) (hCovers : H.Covers dim w) :
    ∃ params, ClientParams.ofSecrets A S E H m dim p w = some params ∧
      ∀ k < queries, Masked params A H (S.rowAt k) (E.rowAt k) k := by
  rcases ofSecrets_spec aShape sCovers eCovers hCovers with
    ⟨B, C, prepared, bShape, bMatrix, cShape, cMatrix⟩
  refine ⟨_, prepared, ?_⟩
  intro k kLt
  have sRow := FlatMatrix.rowAt_eq_ofFn sCovers ⟨k, kLt⟩
  have eRow := FlatMatrix.rowAt_eq_ofFn eCovers ⟨k, kLt⟩
  constructor
  · rw [FlatMatrix.rowAt_eq_ofFn bShape.toCovers ⟨k, kLt⟩, sRow, eRow,
      FlatMatrix.vecMul_ofFn aShape.toCovers, bMatrix]
    apply List.ext_getElem
    · simp
    · intro j _ _
      simp [Matrix.add_apply, Matrix.mul_apply_eq_vecMul]
  · rw [FlatMatrix.rowAt_eq_ofFn cShape.toCovers ⟨k, kLt⟩, sRow,
      FlatMatrix.vecMul_ofFn hCovers, cMatrix, Matrix.mul_apply_eq_vecMul]

/-- Whatever was sampled, the client masks every query with zero secrets and zero errors. -/
theorem new_masked_zero (nextU32 : Seed → ℕ → UInt32) (secrets errors : ℕ → List UInt32)
    (publicSeed : Seed) (queriesPos : 1 ≤ queries) (queriesLt : queries < 2 ^ 52)
    (mPos : 0 < m) (dimPos : 0 < dim) (hCovers : H.Covers dim w) :
    ∃ A params, FlatMatrix.newFromSeed nextU32 publicSeed dim m = some A ∧ A.cols = m ∧
      ClientParams.new nextU32 secrets errors m dim p w publicSeed H queries =
        some (.ok params) ∧
      ∀ k < queries, params.B.rowAt k = List.replicate m 0 ∧
        params.C.rowAt k = List.replicate w 0 := by
  rcases FlatMatrix.newFromSeed_hasShape nextU32 publicSeed dimPos mPos with
    ⟨A, generated, aShape⟩
  rcases FlatMatrix.withVector_zero_prefix ((List.range queries).flatMap secrets) queriesPos
    dimPos with ⟨S, wrappedS, sCovers, sZero⟩
  rcases FlatMatrix.withVector_zero_prefix ((List.range queries).flatMap errors) queriesPos
    mPos with ⟨E, wrappedE, eCovers, eZero⟩
  rcases ofSecrets_rows (p := p) aShape sCovers eCovers hCovers with ⟨params, prepared, masked⟩
  refine ⟨A, params, generated, aShape.cols_eq, ?_, ?_⟩
  · rw [ClientParams.new, if_neg (by omega)]
    simp only [generated, wrappedS, wrappedE, prepared, Option.bind_eq_bind, Option.bind_some]
  · intro k kLt
    have rows := masked k kLt
    rw [sZero k kLt, eZero k kLt] at rows
    refine ⟨?_, ?_⟩
    · rw [rows.b_eq, FlatMatrix.vecMul_zero, aShape.cols_eq]
      simp
    · rw [rows.c_eq, FlatMatrix.vecMul_zero, hCovers.cols_eq]

/--
The client masks its queries with what it sampled exactly when every sampled
mask vanishes: `s_k * A + e_k = 0` and `s_k * H = 0`.
-/
theorem new_masked_iff (nextU32 : Seed → ℕ → UInt32) (secrets : ℕ → TernaryVector dim)
    (errors : ℕ → TernaryVector m) (publicSeed : Seed) (queriesPos : 1 ≤ queries)
    (queriesLt : queries < 2 ^ 52) (mPos : 0 < m) (dimPos : 0 < dim) (hCovers : H.Covers dim w) :
    ∃ A params, FlatMatrix.newFromSeed nextU32 publicSeed dim m = some A ∧
      ClientParams.new nextU32 (fun k => (secrets k).values) (fun k => (errors k).values) m dim p w
        publicSeed H queries = some (.ok params) ∧
      ((∀ k < queries, Masked params A H (secrets k).values (errors k).values k) ↔
        ∀ k < queries,
          List.zipWith (· + ·) (FlatMatrix.vecMul (secrets k).values A) (errors k).values =
              List.replicate m 0 ∧
            FlatMatrix.vecMul (secrets k).values H = List.replicate w 0) := by
  rcases new_masked_zero (p := p) nextU32 (fun k => (secrets k).values)
    (fun k => (errors k).values) publicSeed queriesPos queriesLt mPos dimPos hCovers with
    ⟨A, params, generated, -, created, zero⟩
  refine ⟨A, params, generated, created, ?_⟩
  constructor
  · intro masked k kLt
    rw [← (masked k kLt).b_eq, ← (masked k kLt).c_eq]
    exact zero k kLt
  · intro vanishing k kLt
    constructor
    · rw [(zero k kLt).1, (vanishing k kLt).1]
    · rw [(zero k kLt).2, (vanishing k kLt).2]

/-- A stream that begins with `3` and goes on with `2`. -/
def threeThenTwos (_ : Seed) (k : ℕ) : UInt32 := if k = 0 then 3 else 2

/-- The secret `(1, -1)` and the error `-1` cancel: `3 - 2 - 1 = 0` and `5 - 5 = 0`. -/
theorem new_masked_iff_cancelling :
    ∃ A params, FlatMatrix.newFromSeed threeThenTwos [] 2 1 = some A ∧
      ClientParams.new threeThenTwos (fun _ => [1, 4294967295]) (fun _ => [4294967295]) 1 2 8 1 []
        ⟨2, 1, 2, [5, 5]⟩ 1 = some (.ok params) ∧
      ∀ k < 1, Masked params A ⟨2, 1, 2, [5, 5]⟩ [1, 4294967295] [4294967295] k := by
  rcases new_masked_iff (p := 8) threeThenTwos (fun _ => ⟨[1, 4294967295], rfl, by simp⟩)
    (fun _ => ⟨[4294967295], rfl, by simp⟩) [] (le_refl 1) (by decide) (by decide) (by decide)
    (⟨rfl, rfl, rfl, by decide, by decide, by decide⟩ : FlatMatrix.Covers ⟨2, 1, 2, [5, 5]⟩ 2 1)
    with ⟨A, params, generated, created, masked⟩
  have sampled : FlatMatrix.newFromSeed threeThenTwos [] 2 1 = some ⟨2, 1, 2, [3, 2]⟩ := by decide
  obtain rfl : A = ⟨2, 1, 2, [3, 2]⟩ := Option.some.inj (generated.symm.trans sampled)
  exact ⟨_, params, sampled, created, masked.mpr (by decide)⟩

/-- With `A = 3`, secret `1` and error `1` the mask should be `4`, and it is `0`. -/
theorem new_not_masked_by_samples :
    ∃ A params, FlatMatrix.newFromSeed (fun _ _ => 3) [] 1 1 = some A ∧
      ClientParams.new (fun _ _ => 3) (fun _ => [1]) (fun _ => [1]) 1 1 8 1 [] ⟨1, 1, 1, [5]⟩ 1 =
        some (.ok params) ∧
      params.B.rowAt 0 = [0] ∧ List.zipWith (· + ·) (FlatMatrix.vecMul [1] A) [1] = [4] ∧
      ¬Masked params A ⟨1, 1, 1, [5]⟩ [1] [1] 0 := by
  refine ⟨_, _, rfl, rfl, rfl, rfl, ?_⟩
  intro masked
  exact absurd masked.b_eq (by decide)

end Masks

end PracticalCrypto.Frodo
