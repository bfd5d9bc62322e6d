import PracticalCrypto.Frodo.Consumption
import PracticalCrypto.Frodo.Format

/-!
# The remaining operations of the FrodoPIR matrices

This file embeds the operations of `matrix/src/matrix.rs` that the protocol itself does
not call, and looks at the matrix type as a whole.

`n` is documented as the number of elements, `rows * cols`, and the `unsafe` accesses rely
on it; `WellFormed` is that invariant. A `Construction` is any way to obtain a matrix from
the public constructors by the public operations. Every operation but two keeps the
invariant: `with_vector` does not compare the vector with the shape, and `pop` takes an
element away from the last row and leaves the shape as it is.
-/

namespace PracticalCrypto.Frodo

open RowMajor

namespace FlatMatrix

section Model

def copy (self : FlatMatrix) : Option FlatMatrix :=
  withVector self.elements self.rows self.cols

/-- `Matrix::pop`. The subtraction panics if `n` does not count the popped element. -/
def pop (self : FlatMatrix) : Option (Option UInt32 × FlatMatrix) :=
  match self.elements.getLast? with
  | none => some (none, self)
  | some poppedElement =>
      if self.n = 0 then none
      else some (some poppedElement,
        { self with elements := self.elements.dropLast, n := self.n - 1 })

/-- `Matrix::push_row`: the result and the matrix afterwards. -/
def pushRow (self : FlatMatrix) (row : List UInt32) : Except String Unit × FlatMatrix :=
  if row.length ≠ self.cols then
    (.error ("Row length must be equal to the number of columns (" ++ toString self.cols ++
      "), but got " ++ toString row.length), self)
  else
    (.ok (), { self with
      elements := self.elements ++ row
      rows := self.rows + 1
      n := self.n + self.cols })

def sub (self b : FlatMatrix) : Option FlatMatrix := combine (· - ·) self b

/-- `Matrix::equal`: it compares the shapes, and panics if they differ. -/
def equal (self b : FlatMatrix) : Option Bool :=
  if self.rows = b.rows ∧ self.cols = b.cols then some true else none

def multNaive (a b : FlatMatrix) : Option FlatMatrix :=
  if a.cols = b.rows then
    if a.rows * a.cols ≤ a.elements.length ∧ b.rows * b.cols ≤ b.elements.length then
      withVector
        (ofTable a.rows b.cols fun i j =>
          (List.range a.cols).foldl (fun sum k => sum + a.entry i k * b.entry k j) 0)
        a.rows b.cols
    else none
  else none

end Model

section Invariant

variable {self b result : FlatMatrix} {rows cols : ℕ}

theorem withVector_wellFormed_iff {elements : List UInt32}
    (built : withVector elements rows cols = some result) :
    result.WellFormed ↔ elements.length = rows * cols := by
  rcases withVector_eq_some.mp built with ⟨-, -, rfl⟩
  constructor
  · intro wellFormed
    exact wellFormed.length_eq
  · intro fits
    exact ⟨rfl, fits⟩

theorem new_wellFormed (built : new rows cols = some result) : result.WellFormed := by
  rw [new] at built
  split at built
  · cases built
  · apply (withVector_wellFormed_iff built).mpr
    simp

theorem newFromSeed_wellFormed {nextU32 : Seed → ℕ → UInt32} {seed : Seed}
    (built : newFromSeed nextU32 seed rows cols = some result) : result.WellFormed := by
  rw [newFromSeed] at built
  split at built
  · cases built
  · apply (withVector_wellFormed_iff built).mpr
    simp [Nat.mul_comm]

theorem newFromVals_wellFormed {base64 : Base64Crate} {vals : List String}
    {elemSize plaintextBits : ℕ}
    (built : newFromVals base64 vals rows elemSize plaintextBits = pure result) :
    result.WellFormed := by
  rcases newFromVals_rows built with ⟨parts, rfl, widths, -⟩
  constructor
  · rfl
  · rw [List.length_flatten, widths, List.sum_replicate_nat]

theorem copy_wellFormed (wellFormed : self.WellFormed) (copied : self.copy = some result) :
    result.WellFormed := by
  apply (withVector_wellFormed_iff copied).mpr
  rw [wellFormed.length_eq, wellFormed.n_eq]

/-- Popping an element breaks the invariant; without an element nothing is popped. -/
theorem pop_wellFormed_iff (wellFormed : self.WellFormed) :
    (∀ popped result, self.pop = some (popped, result) → result.WellFormed) ↔
      self.elements = [] := by
  have counted := wellFormed.length_eq
  constructor
  · intro kept
    by_contra nonempty
    have positive : 0 < self.elements.length := List.length_pos_iff.mpr nonempty
    have taken : self.pop = some (some (self.elements.getLast nonempty),
        { self with elements := self.elements.dropLast, n := self.n - 1 }) := by
      have countPos : self.n ≠ 0 := by omega
      simp [pop, List.getLast?_eq_some_getLast nonempty, countPos]
    have shape := (kept _ _ taken).n_eq
    have before := wellFormed.n_eq
    simp only at shape
    omega
  · intro empty popped result taken
    simp only [pop, empty, List.getLast?_nil, Option.some.injEq, Prod.mk.injEq] at taken
    exact taken.2 ▸ wellFormed

theorem popRow_wellFormed {popped : Option (List UInt32)} (wellFormed : self.WellFormed)
    (taken : self.popRow = some (popped, result)) : result.WellFormed := by
  by_cases noRow : self.rows = 0
  · simp only [popRow, noRow, if_true, Option.some.injEq, Prod.mk.injEq] at taken
    exact taken.2 ▸ wellFormed
  · obtain ⟨kept, rowsEq⟩ := Nat.exists_eq_succ_of_ne_zero noRow
    rw [wellFormed.popRow_eq rowsEq] at taken
    cases taken
    apply wellFormed.takeRows
    omega

theorem pushRow_wellFormed (wellFormed : self.WellFormed) (row : List UInt32) :
    (self.pushRow row).2.WellFormed := by
  rw [pushRow]
  split
  case isTrue => exact wellFormed
  case isFalse fits =>
    constructor
    · simp [wellFormed.n_eq, Nat.succ_mul]
    · simp [wellFormed.length_eq, not_not.mp fits]

theorem combine_wellFormed {op : UInt32 → UInt32 → UInt32} (wellFormed : self.WellFormed)
    (combined : combine op self b = some result) : result.WellFormed := by
  rw [combine] at combined
  split at combined
  case isFalse => cases combined
  split at combined
  case isFalse => cases combined
  case isTrue inside =>
    cases combined
    have counted := wellFormed.length_eq
    constructor
    · exact wellFormed.n_eq
    · simp only [List.length_append, List.length_zipWith, List.length_take, List.length_drop]
      omega

theorem add_hasShape (shape : self.HasShape rows cols) (added : self.add b = some result) :
    result.HasShape rows cols := by
  have sameShape : result.rows = self.rows ∧ result.cols = self.cols := by
    rw [add, combine] at added
    split at added
    · split at added
      · cases added
        exact ⟨rfl, rfl⟩
      · cases added
    · cases added
  have kept := combine_wellFormed shape.wellFormed added
  have resultShape := kept.hasShape (by rw [sameShape.1, shape.rows_eq]; exact shape.rows_pos)
    (by rw [sameShape.2, shape.cols_eq]; exact shape.cols_pos)
  rwa [sameShape.1, sameShape.2, shape.rows_eq, shape.cols_eq] at resultShape

theorem transpose_wellFormed (transposed : self.transpose = some result) :
    result.WellFormed := by
  rw [transpose] at transposed
  split at transposed
  · apply (withVector_wellFormed_iff transposed).mpr
    simp
  · cases transposed

theorem multNaive_wellFormed {a b : FlatMatrix} (multiplied : multNaive a b = some result) :
    result.WellFormed := by
  rw [multNaive] at multiplied
  split at multiplied
  · split at multiplied
    · apply (withVector_wellFormed_iff multiplied).mpr
      simp
    · cases multiplied
  · cases multiplied

theorem multTranspose_hasShape {a b : FlatMatrix} (multiplied : multTranspose a b = some result) :
    result.HasShape a.rows b.cols := by
  rw [multTranspose] at multiplied
  split at multiplied
  · cases multiplied
  · rcases Option.bind_eq_some_iff.mp multiplied with ⟨t, -, wrapped⟩
    split at wrapped
    · exact withVector_hasShape wrapped (by simp)
    · cases wrapped

end Invariant

end FlatMatrix

section Constructions

/-- A way to obtain a matrix from the public constructors by the public operations. -/
inductive Construction where
  | withVector (elements : List UInt32) (rows cols : ℕ)
  | new (rows cols : ℕ)
  | newFromSeed (seed : Seed) (rows cols : ℕ)
  | newFromVals (vals : List String) (rows elemSize plaintextBits : ℕ)
  | copy (self : Construction)
  | pop (self : Construction)
  | popRow (self : Construction)
  | pushRow (self : Construction) (row : List UInt32)
  | add (self b : Construction)
  | sub (self b : Construction)
  | transpose (self : Construction)
  | multNaive (a b : Construction)
  | multTranspose (a b : Construction)

namespace Construction

variable (base64 : Base64Crate) (nextU32 : Seed → ℕ → UInt32)

/-- The matrix that a construction ends with, unless one of its operations panics or fails. -/
def eval : Construction → Option FlatMatrix
  | .withVector elements rows cols => FlatMatrix.withVector elements rows cols
  | .new rows cols => FlatMatrix.new rows cols
  | .newFromSeed seed rows cols => FlatMatrix.newFromSeed nextU32 seed rows cols
  | .newFromVals vals rows elemSize plaintextBits =>
      (FlatMatrix.newFromVals base64 vals rows elemSize plaintextBits).run.bind Except.toOption
  | .copy self => self.eval.bind FlatMatrix.copy
  | .pop self => self.eval.bind fun matrix => matrix.pop.map Prod.snd
  | .popRow self => self.eval.bind fun matrix => matrix.popRow.map Prod.snd
  | .pushRow self row => self.eval.map fun matrix => (matrix.pushRow row).2
  | .add self b => self.eval.bind fun matrix => b.eval.bind matrix.add
  | .sub self b => self.eval.bind fun matrix => b.eval.bind matrix.sub
  | .transpose self => self.eval.bind FlatMatrix.transpose
  | .multNaive a b => a.eval.bind fun left => b.eval.bind (FlatMatrix.multNaive left)
  | .multTranspose a b => a.eval.bind fun left => b.eval.bind (FlatMatrix.multTranspose left)

/-- Every matrix that occurs on the way satisfies `P`. -/
def Throughout (P : FlatMatrix → Prop) : Construction → Prop
  | self@(.withVector ..) | self@(.new ..) | self@(.newFromSeed ..) | self@(.newFromVals ..) =>
      ∀ matrix, self.eval base64 nextU32 = some matrix → P matrix
  | after@(.copy self) | after@(.pop self) | after@(.popRow self) | after@(.pushRow self _) |
    after@(.transpose self) =>
      self.Throughout P ∧ ∀ matrix, after.eval base64 nextU32 = some matrix → P matrix
  | after@(.add self b) | after@(.sub self b) | after@(.multNaive self b) |
    after@(.multTranspose self b) =>
      (self.Throughout P ∧ b.Throughout P) ∧
        ∀ matrix, after.eval base64 nextU32 = some matrix → P matrix

/--
Every vector that is wrapped has the length of the shape it is given, and `pop` is only
called on matrices without elements.
-/
def Careful : Construction → Prop
  | .withVector elements rows cols => rows = 0 ∨ cols = 0 ∨ elements.length = rows * cols
  | .new .. | .newFromSeed .. | .newFromVals .. => True
  | .pop self =>
      self.Careful ∧ ∀ matrix, self.eval base64 nextU32 = some matrix → matrix.elements = []
  | .copy self | .popRow self | .pushRow self _ | .transpose self => self.Careful
  | .add self b | .sub self b | .multNaive self b | .multTranspose self b =>
      self.Careful ∧ b.Careful

variable {base64 nextU32} {P : FlatMatrix → Prop}

theorem Throughout.eval {construction : Construction}
    (throughout : construction.Throughout base64 nextU32 P) {matrix : FlatMatrix}
    (built : construction.eval base64 nextU32 = some matrix) : P matrix := by
  cases construction with
  | withVector | new | newFromSeed | newFromVals => exact throughout matrix built
  | copy | pop | popRow | pushRow | transpose => exact throughout.2 matrix built
  | add | sub | multNaive | multTranspose => exact throughout.2 matrix built

/-- A step that keeps `P` takes the matrices of a construction to such matrices. -/
theorem Throughout.bind {self : Construction} (throughout : self.Throughout base64 nextU32 P)
    {step : FlatMatrix → Option FlatMatrix}
    (keeps : ∀ matrix result, P matrix → step matrix = some result → P result) :
    ∀ result, (self.eval base64 nextU32).bind step = some result → P result := by
  intro result stepped
  rcases Option.bind_eq_some_iff.mp stepped with ⟨matrix, built, taken⟩
  exact keeps matrix result (throughout.eval built) taken

theorem Throughout.bind₂ {self b : Construction} (throughout : self.Throughout base64 nextU32 P)
    {step : FlatMatrix → FlatMatrix → Option FlatMatrix}
    (keeps : ∀ left right result, P left → step left right = some result → P result) :
    ∀ result, ((self.eval base64 nextU32).bind fun left =>
      (b.eval base64 nextU32).bind (step left)) = some result → P result := by
  apply throughout.bind
  intro left result holds stepped
  rcases Option.bind_eq_some_iff.mp stepped with ⟨right, -, taken⟩
  exact keeps left right result holds taken

/-- The invariant holds all the way exactly if the operations that break it are avoided. -/
theorem throughout_wellFormed_iff (base64 : Base64Crate) (nextU32 : Seed → ℕ → UInt32)
    (construction : Construction) :
    construction.Throughout base64 nextU32 FlatMatrix.WellFormed ↔
      construction.Careful base64 nextU32 := by
  induction construction with
  | withVector elements rows cols =>
      simp only [Throughout, Careful, eval]
      constructor
      · intro kept
        by_cases null : rows = 0 ∨ cols = 0
        · exact null.elim .inl fun noCols => .inr (.inl noCols)
        · have built := FlatMatrix.withVector_eq elements (Nat.pos_of_ne_zero (not_or.mp null).1)
            (Nat.pos_of_ne_zero (not_or.mp null).2)
          exact .inr (.inr ((FlatMatrix.withVector_wellFormed_iff built).mp (kept _ built)))
      · rintro careful matrix built
        rcases FlatMatrix.withVector_eq_some.mp built with ⟨rowsPos, colsPos, -⟩
        apply (FlatMatrix.withVector_wellFormed_iff built).mpr
        rcases careful with noRows | noCols | fits
        · omega
        · omega
        · exact fits
  | new rows cols =>
      simp only [Throughout, Careful, eval, iff_true]
      intro matrix built
      exact FlatMatrix.new_wellFormed built
  | newFromSeed seed rows cols =>
      simp only [Throughout, Careful, eval, iff_true]
      intro matrix built
      exact FlatMatrix.newFromSeed_wellFormed built
  | newFromVals vals rows elemSize plaintextBits =>
      simp only [Throughout, Careful, eval, iff_true]
      intro matrix built
      rcases Option.bind_eq_some_iff.mp built with ⟨result, returned, isMatrix⟩
      cases result with
      | error => cases isMatrix
      | ok db =>
          cases isMatrix
          exact FlatMatrix.newFromVals_wellFormed returned
  | pop self ih =>
      simp only [Throughout, Careful]
      rw [← ih]
      apply and_congr_right
      intro throughout
      constructor
      · intro kept matrix built
        apply (FlatMatrix.pop_wellFormed_iff (throughout.eval built)).mp
        intro popped result taken
        apply kept result
        simp [eval, built, taken]
      · intro empty result popped
        rcases Option.bind_eq_some_iff.mp popped with ⟨matrix, built, taken⟩
        rcases Option.map_eq_some_iff.mp taken with ⟨⟨element, rest⟩, isPop, rfl⟩
        have kept := (FlatMatrix.pop_wellFormed_iff (throughout.eval built)).mpr (empty _ built)
        exact kept element rest isPop
  | copy self ih =>
      simp only [Throughout, Careful, ← ih, and_iff_left_iff_imp]
      intro throughout
      exact throughout.bind fun _ _ wellFormed copied =>
        FlatMatrix.copy_wellFormed wellFormed copied
  | popRow self ih =>
      simp only [Throughout, Careful, ← ih, and_iff_left_iff_imp]
      intro throughout
      apply throughout.bind
      intro matrix result wellFormed taken
      rcases Option.map_eq_some_iff.mp taken with ⟨⟨row, rest⟩, isPop, rfl⟩
      exact FlatMatrix.popRow_wellFormed wellFormed isPop
  | pushRow self row ih =>
      simp only [Throughout, Careful, ← ih, and_iff_left_iff_imp]
      intro throughout result pushed
      rcases Option.map_eq_some_iff.mp pushed with ⟨matrix, built, rfl⟩
      exact FlatMatrix.pushRow_wellFormed (throughout.eval built) row
  | transpose self ih =>
      simp only [Throughout, Careful, ← ih, and_iff_left_iff_imp]
      intro throughout
      exact throughout.bind fun _ _ _ transposed => FlatMatrix.transpose_wellFormed transposed
  | add self b ihSelf ihB =>
      simp only [Throughout, Careful, ← ihSelf, ← ihB, and_iff_left_iff_imp]
      rintro ⟨throughout, -⟩
      exact throughout.bind₂ fun _ _ _ wellFormed sum =>
        FlatMatrix.combine_wellFormed wellFormed sum
  | sub self b ihSelf ihB =>
      simp only [Throughout, Careful, ← ihSelf, ← ihB, and_iff_left_iff_imp]
      rintro ⟨throughout, -⟩
      exact throughout.bind₂ fun _ _ _ wellFormed difference =>
        FlatMatrix.combine_wellFormed wellFormed difference
  | multNaive a b ihA ihB =>
      simp only [Throughout, Careful, ← ihA, ← ihB, and_iff_left_iff_imp]
      rintro ⟨throughout, -⟩
      exact throughout.bind₂ fun _ _ _ _ product => FlatMatrix.multNaive_wellFormed product
  | multTranspose a b ihA ihB =>
      simp only [Throughout, Careful, ← ihA, ← ihB, and_iff_left_iff_imp]
      rintro ⟨throughout, -⟩
      exact throughout.bind₂ fun _ _ _ _ product =>
        (FlatMatrix.multTranspose_hasShape product).wellFormed

/-- A vector of three elements is wrapped as a row of two, and `pop` leaves one row of two. -/
theorem not_wellFormed_wrapped_popped :
    (∃ matrix, (withVector [1, 2, 3] 1 2).eval standardBase64 (fun _ _ => 0) = some matrix ∧
      matrix.n = 2 ∧ matrix.elements.length = 3) ∧
    ∃ matrix, (pop (new 1 2)).eval standardBase64 (fun _ _ => 0) = some matrix ∧
      matrix.rows * matrix.cols = 2 ∧ matrix.n = 1 ∧ matrix.elements.length = 1 := by
  exact ⟨⟨_, rfl, rfl, rfl⟩, ⟨_, rfl, rfl, rfl, rfl⟩⟩

end Construction

end Constructions

section Kernels

namespace FlatMatrix

variable {a b : FlatMatrix} {rows inner cols : ℕ}

theorem HasShape.ext (left : a.HasShape rows cols) (right : b.HasShape rows cols)
    (same : a.toMatrix rows cols = b.toMatrix rows cols) : a = b := by
  have sameElements := eq_of_toMatrix_eq left.length_eq right.length_eq same
  have sameRows := left.rows_eq.trans right.rows_eq.symm
  have sameCols := left.cols_eq.trans right.cols_eq.symm
  have sameCount := left.n_eq.trans right.n_eq.symm
  cases a
  cases b
  simp_all

theorem multNaive_spec (coversLeft : a.Covers rows inner) (coversRight : b.Covers inner cols) :
    ∃ result, multNaive a b = some result ∧ result.HasShape rows cols ∧
      result.toMatrix rows cols = a.toMatrix rows inner * b.toMatrix inner cols := by
  have aRows := coversLeft.rows_eq
  have aCols := coversLeft.cols_eq
  have bRows := coversRight.rows_eq
  have bCols := coversRight.cols_eq
  have inside : rows * inner ≤ a.elements.length ∧ inner * cols ≤ b.elements.length :=
    ⟨coversLeft.length_le, coversRight.length_le⟩
  simp only [multNaive, aRows, aCols, bRows, bCols, if_true, if_pos inside,
    withVector_eq _ coversLeft.rows_pos coversRight.cols_pos]
  refine ⟨_, rfl, ⟨⟨rfl, rfl, rfl, coversLeft.rows_pos, coversRight.cols_pos, ?_⟩, ?_⟩, ?_⟩
  · simp
  · simp
  · apply Matrix.ext
    intro i j
    have entry := toMatrix_ofTable (fun i j =>
      (List.range inner).foldl (fun sum k => sum + a.entry i k * b.entry k j) 0) i j
    apply entry.trans
    rw [foldl_range_add, Matrix.mul_apply]
    apply Finset.sum_congr rfl
    intro k _
    rw [toMatrix_eq_entry coversLeft, toMatrix_eq_entry coversRight]

/-- With an inner dimension, both multiplications have the same result, a panic included. -/
theorem multTranspose_eq_multNaive (left : a.WellFormed) (right : b.WellFormed)
    (compatible : a.cols = b.rows) (innerPos : 0 < a.cols) : multTranspose a b = multNaive a b := by
  by_cases null : a.rows = 0 ∨ b.cols = 0
  · have noProduct : ∀ elements, withVector elements a.rows b.cols = none := by
      intro elements
      simp [withVector, null]
    have naive : multNaive a b = none := by
      rw [multNaive, if_pos compatible, noProduct, ite_self]
    have transposed : multTranspose a b = none := by
      rw [multTranspose, if_neg (not_not.mpr compatible)]
      simp [noProduct]
    rw [naive, transposed]
  · have rowsPos : 0 < a.rows := Nat.pos_of_ne_zero (not_or.mp null).1
    have colsPos : 0 < b.cols := Nat.pos_of_ne_zero (not_or.mp null).2
    have aShape := left.hasShape rowsPos innerPos
    have bShape := right.hasShape (compatible ▸ innerPos) colsPos
    rw [← compatible] at bShape
    rcases multTranspose_spec aShape.toCovers bShape.toCovers with ⟨first, isFirst, shape, product⟩
    rcases multNaive_spec aShape.toCovers bShape.toCovers with
      ⟨second, isSecond, sameShape, sameProduct⟩
    rw [isFirst, isSecond, shape.ext sameShape (product.trans sameProduct.symm)]

theorem transpose_transpose (shape : a.HasShape rows cols) :
    a.transpose.bind transpose = some a := by
  rcases transpose_spec shape.toCovers with ⟨t, transposed, tShape, tMatrix⟩
  rcases transpose_spec tShape.toCovers with ⟨back, isBack, backShape, backMatrix⟩
  rw [transposed, Option.bind_some, isBack]
  congr 1
  apply backShape.ext shape
  rw [backMatrix, tMatrix, Matrix.transpose_transpose]

theorem transpose_multByVector (shape : a.HasShape rows cols) (vector : Fin rows → UInt32) :
    (a.transpose.bind fun t => t.multByVector (List.ofFn vector)) =
      some (.ok (List.ofFn (Matrix.vecMul vector (a.toMatrix rows cols)))) := by
  rcases transpose_spec shape.toCovers with ⟨t, transposed, tShape, tMatrix⟩
  rw [transposed, Option.bind_some, multByVector_spec tShape.toCovers vector, tMatrix,
    Matrix.mulVec_transpose]

/--
The kernels agree on well-formed matrices. `with_vector` refuses null matrices, so that
`transpose` has no result for a matrix without rows, and neither has the multiplication
by the transpose.
-/
theorem kernels_agree :
    (∀ a b : FlatMatrix, a.WellFormed → b.WellFormed → a.cols = b.rows → a.cols ≠ 0 →
      multTranspose a b = multNaive a b ∧
        (a.rows ≠ 0 → b.cols ≠ 0 → ∃ product, multNaive a b = some product)) ∧
    (∀ a : FlatMatrix, a.WellFormed → a.rows ≠ 0 → a.cols ≠ 0 →
      a.transpose.bind transpose = some a) ∧
    ∀ db : FlatMatrix, db.WellFormed → db.rows ≠ 0 → db.cols ≠ 0 →
      ∀ v : Fin db.rows → UInt32,
        (db.transpose.bind fun t => t.multByVector (List.ofFn v)) =
          some (.ok (List.ofFn (Matrix.vecMul v (db.toMatrix db.rows db.cols)))) := by
  refine ⟨?_, ?_, ?_⟩
  · intro a b left right compatible innerPos
    constructor
    · exact multTranspose_eq_multNaive left right compatible (Nat.pos_of_ne_zero innerPos)
    · intro rowsPos colsPos
      have aShape := left.hasShape (Nat.pos_of_ne_zero rowsPos) (Nat.pos_of_ne_zero innerPos)
      have bShape := right.hasShape (Nat.pos_of_ne_zero (compatible ▸ innerPos))
        (Nat.pos_of_ne_zero colsPos)
      rw [← compatible] at bShape
      rcases multNaive_spec aShape.toCovers bShape.toCovers with ⟨product, isProduct, -⟩
      exact ⟨product, isProduct⟩
  · intro a wellFormed rowsPos colsPos
    exact transpose_transpose
      (wellFormed.hasShape (Nat.pos_of_ne_zero rowsPos) (Nat.pos_of_ne_zero colsPos))
  · intro db wellFormed rowsPos colsPos v
    exact transpose_multByVector
      (wellFormed.hasShape (Nat.pos_of_ne_zero rowsPos) (Nat.pos_of_ne_zero colsPos)) v

theorem kernels_agree_small :
    multTranspose ⟨1, 2, 2, [1, 2]⟩ ⟨2, 1, 2, [3, 4]⟩ = some ⟨1, 1, 1, [11]⟩ ∧
      (transpose ⟨1, 2, 2, [1, 2]⟩).bind transpose = some ⟨1, 2, 2, [1, 2]⟩ := by
  have left : WellFormed ⟨1, 2, 2, [1, 2]⟩ := ⟨rfl, rfl⟩
  have right : WellFormed ⟨2, 1, 2, [3, 4]⟩ := ⟨rfl, rfl⟩
  have agree := kernels_agree
  constructor
  · rw [(agree.1 _ _ left right rfl (by decide)).1]
    decide
  · exact agree.2.1 _ left (by decide) (by decide)

/--
A matrix whose rows were all popped has no transpose, and the multiplication by the
transpose panics where the naive one returns zeros.
-/
theorem kernels_null :
    (popRow ⟨1, 2, 2, [1, 2]⟩).map Prod.snd = some ⟨0, 2, 0, []⟩ ∧
      transpose ⟨0, 2, 0, []⟩ = none ∧
      multTranspose ⟨1, 0, 0, []⟩ ⟨0, 2, 0, []⟩ = none ∧
      multNaive ⟨1, 0, 0, []⟩ ⟨0, 2, 0, []⟩ = some ⟨1, 2, 2, [0, 0]⟩ := by
  decide

end FlatMatrix

end Kernels

section Equality

namespace FlatMatrix

/-- Two matrices of one shape have the same elements. -/
def Agrees (self b : FlatMatrix) : Prop :=
  ∀ i < self.rows, ∀ j < self.cols, self.entry i j = b.entry i j

variable {a b c : FlatMatrix} {rows cols : ℕ}

theorem Agrees.toMatrix_eq (left : a.Covers rows cols) (right : b.Covers rows cols)
    (agrees : a.Agrees b) : a.toMatrix rows cols = b.toMatrix rows cols := by
  apply Matrix.ext
  intro i j
  rw [toMatrix_eq_entry left, toMatrix_eq_entry right]
  apply agrees
  · rw [left.rows_eq]
    exact i.isLt
  · rw [left.cols_eq]
    exact j.isLt

theorem add_not_agrees (shape : a.HasShape rows cols) (addend : c.HasShape rows cols)
    (nonzero : ∃ x ∈ c.elements, x ≠ 0) :
    ∃ sum, a.add c = some sum ∧ sum.HasShape rows cols ∧ ¬a.Agrees sum := by
  rcases add_spec shape addend.toCovers with ⟨sum, added, sumShape, sumMatrix⟩
  refine ⟨sum, added, sumShape, ?_⟩
  intro agrees
  have unchanged := agrees.toMatrix_eq shape.toCovers sumShape.toCovers
  have zero : c.toMatrix rows cols = 0 := by
    rw [sumMatrix] at unchanged
    exact left_eq_add.mp unchanged
  have zeroElements : c.elements = List.replicate (rows * cols) 0 := by
    apply eq_of_toMatrix_eq addend.length_eq (by simp)
    apply zero.trans
    apply Matrix.ext
    intro i j
    simp [toMatrix_apply, List.getD_eq_getElem?_getD, List.getElem?_replicate]
    split <;> rfl
  rcases nonzero with ⟨x, member, notZero⟩
  rw [zeroElements] at member
  exact notZero (List.eq_of_mem_replicate member)

/--
`Matrix::equal` is right about two matrices of one shape exactly if they agree, and no
addition makes a difference to it.
-/
theorem equal_decides_iff (a b : FlatMatrix) (left : a.WellFormed) (right : b.WellFormed)
    (sameRows : a.rows = b.rows) (sameCols : a.cols = b.cols) :
    ((a.equal b = some true ↔ a.Agrees b) ↔ a.Agrees b) ∧
      ((∃ x ∈ b.elements, x ≠ 0) →
        ∃ sum, a.add b = some sum ∧ ¬a.Agrees sum ∧ a.equal sum = some true) := by
  have holds : a.equal b = some true := by
    simp [equal, sameRows, sameCols]
  constructor
  · simp [holds]
  · intro nonzero
    have positive : 0 < b.rows * b.cols := by
      rcases nonzero with ⟨x, member, -⟩
      rw [← right.n_eq, ← right.length_eq]
      exact List.length_pos_of_mem member
    have rowsPos : 0 < b.rows := Nat.pos_of_mul_pos_right positive
    have colsPos : 0 < b.cols := Nat.pos_of_mul_pos_left positive
    have aShape := left.hasShape (sameRows ▸ rowsPos) (sameCols ▸ colsPos)
    have bShape := right.hasShape rowsPos colsPos
    rw [sameRows, sameCols] at aShape
    rcases add_not_agrees aShape bShape nonzero with ⟨sum, added, sumShape, differs⟩
    refine ⟨sum, added, differs, ?_⟩
    simp [equal, sumShape.rows_eq, sumShape.cols_eq, sameRows, sameCols]

theorem equal_decides_iff_one :
    equal ⟨1, 1, 1, [1]⟩ ⟨1, 1, 1, [1]⟩ = some true ∧ Agrees ⟨1, 1, 1, [1]⟩ ⟨1, 1, 1, [1]⟩ := by
  have agrees : Agrees ⟨1, 1, 1, [1]⟩ ⟨1, 1, 1, [1]⟩ := fun _ _ _ _ => rfl
  have decides := equal_decides_iff ⟨1, 1, 1, [1]⟩ ⟨1, 1, 1, [1]⟩ ⟨rfl, rfl⟩ ⟨rfl, rfl⟩ rfl rfl
  exact ⟨(decides.1.mpr agrees).mpr agrees, agrees⟩

theorem equal_differing :
    equal ⟨1, 1, 1, [0]⟩ ⟨1, 1, 1, [1]⟩ = some true ∧
      ¬Agrees ⟨1, 1, 1, [0]⟩ ⟨1, 1, 1, [1]⟩ ∧
      add ⟨1, 1, 1, [0]⟩ ⟨1, 1, 1, [1]⟩ = some ⟨1, 1, 1, [1]⟩ := by
  refine ⟨by decide, ?_, by decide⟩
  intro agrees
  have same := agrees 0 (by decide) 0 (by decide)
  exact absurd same (by decide)

end FlatMatrix

end Equality

end PracticalCrypto.Frodo
