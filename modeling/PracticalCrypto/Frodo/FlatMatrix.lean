import PracticalCrypto.Library.RowMajor

/-!
# The `u32` matrices of FrodoPIR

This file embeds `Matrix` of `frodo-pir-fast/matrix/src/matrix.rs`: the shape
fields and one flat vector of `u32` elements. All arithmetic wraps modulo
`2^32`, which is the arithmetic of `UInt32`.

A panic of the source, and a read or write outside the vector in one of its
`unsafe` blocks, is the result `none`. A vector longer than `rows * cols` is
accepted, exactly as `with_vector` accepts it: the constructor never compares
the length of the vector it wraps with the shape.

`Covers` says that the vector holds at least a matrix of the given shape, and
`HasShape` that it holds exactly one. Each kernel has one specification lemma,
which computes the Mathlib matrix of its result from those of its arguments.
-/

namespace PracticalCrypto.Frodo

open RowMajor

abbrev Seed := List UInt8

/-- `Matrix`: a shape, the stored element count, and the row-major elements. -/
structure FlatMatrix where
  rows : ℕ
  cols : ℕ
  n : ℕ
  elements : List UInt32
deriving Repr, DecidableEq

namespace FlatMatrix

/-- `Matrix::with_vector`. It panics on a null shape and checks nothing else. -/
def withVector (elements : List UInt32) (rows cols : ℕ) : Option FlatMatrix :=
  if rows = 0 ∨ cols = 0 then none
  else some { rows, cols, n := rows * cols, elements }

def new (rows cols : ℕ) : Option FlatMatrix :=
  if rows = 0 ∨ cols = 0 then none
  else withVector (List.replicate (rows * cols) 0) rows cols

/--
`Matrix::new_from_seed`. The generator is outside the repository, so it is the
parameter `nextU32`: its value at `seed` and `k` is what the `k`-th call of
`next_u32` returns. The vector is filled column count outermost.
-/
def newFromSeed (nextU32 : Seed → ℕ → UInt32) (seed : Seed) (rows cols : ℕ) :
    Option FlatMatrix :=
  if rows = 0 ∨ cols = 0 then none
  else withVector (ofTable cols rows fun outer inner => nextU32 seed (outer * rows + inner))
    rows cols

def isEmpty (matrix : FlatMatrix) : Bool :=
  matrix.rows == 0 && matrix.elements.isEmpty

/-- `Matrix::at`, without a bounds check; a position outside the vector reads as `0` here. -/
def entry (self : FlatMatrix) (i j : ℕ) : UInt32 :=
  self.elements.getD (i * self.cols + j) 0

/-- `Matrix::pop_row`: drains the elements of the last row out of the vector. -/
def popRow (self : FlatMatrix) : Option (Option (List UInt32) × FlatMatrix) :=
  if self.rows = 0 then some (none, self)
  else
    let startIndex := (self.rows - 1) * self.cols
    let endIndex := self.rows * self.cols
    if self.elements.length < endIndex ∨ self.n < self.cols then none
    else
      let lastRow := (self.elements.take endIndex).drop startIndex
      some (some lastRow,
        { self with
          elements := self.elements.take startIndex ++ self.elements.drop endIndex
          rows := self.rows - 1
          n := self.n - self.cols })

/-- The loop that `Matrix::add` and `Matrix::sub` share, on the first `n` elements in place. -/
def combine (op : UInt32 → UInt32 → UInt32) (self b : FlatMatrix) : Option FlatMatrix :=
  if self.rows = b.rows ∧ self.cols = b.cols then
    if self.n ≤ self.elements.length ∧ self.n ≤ b.elements.length then
      some { self with
        elements := List.zipWith op (self.elements.take self.n) (b.elements.take self.n) ++
          self.elements.drop self.n }
    else none
  else none

def add (self b : FlatMatrix) : Option FlatMatrix := combine (· + ·) self b

def transpose (self : FlatMatrix) : Option FlatMatrix :=
  if self.n = self.rows * self.cols ∧ self.n ≤ self.elements.length then
    withVector
      (ofTable self.cols self.rows fun i j => self.elements.getD (j * self.cols + i) 0)
      self.cols self.rows
  else none

/-- `Matrix::mult_by_vector`, with the error text of the source. -/
def multByVector (self : FlatMatrix) (vector : List UInt32) :
    Option (Except String (List UInt32)) :=
  if vector.length ≠ self.cols then
    some (.error "Vector length must match the number of columns in the matrix")
  else if self.rows * self.cols ≤ self.elements.length then
    some (.ok ((List.range self.rows).map fun i =>
      dot (row self.cols self.elements i) vector))
  else none

def multTranspose (a b : FlatMatrix) : Option FlatMatrix :=
  if a.cols ≠ b.rows then none
  else do
    let t ← b.transpose
    if a.rows * a.cols ≤ a.elements.length ∧ b.cols * a.cols ≤ t.elements.length then
      withVector
        (ofTable a.rows b.cols fun i j =>
          dot (row a.cols a.elements i) (row a.cols t.elements j))
        a.rows b.cols
    else none

def rowAt (self : FlatMatrix) (index : ℕ) : List UInt32 :=
  row self.cols self.elements index

/-- The vector holds at least a non-null matrix of the given shape. -/
structure Covers (matrix : FlatMatrix) (rows cols : ℕ) : Prop where
  rows_eq : matrix.rows = rows
  cols_eq : matrix.cols = cols
  n_eq : matrix.n = rows * cols
  rows_pos : 0 < rows
  cols_pos : 0 < cols
  length_le : rows * cols ≤ matrix.elements.length

/-- The vector holds exactly a non-null matrix of the given shape. -/
structure HasShape (matrix : FlatMatrix) (rows cols : ℕ) : Prop
    extends matrix.Covers rows cols where
  length_eq : matrix.elements.length = rows * cols

/-- `n` counts the elements, and the shape has room for exactly that many. -/
structure WellFormed (matrix : FlatMatrix) : Prop where
  n_eq : matrix.n = matrix.rows * matrix.cols
  length_eq : matrix.elements.length = matrix.n

/-- The Mathlib matrix held by the first `rows * cols` elements. -/
def toMatrix (self : FlatMatrix) (rows cols : ℕ) : Matrix (Fin rows) (Fin cols) UInt32 :=
  RowMajor.toMatrix rows cols self.elements

variable {self : FlatMatrix} {rows cols : ℕ}

theorem withVector_eq (elements : List UInt32) (rowsPos : 0 < rows) (colsPos : 0 < cols) :
    withVector elements rows cols = some ⟨rows, cols, rows * cols, elements⟩ := by
  have : ¬(rows = 0 ∨ cols = 0) := by omega
  simp [withVector, this]

theorem withVector_eq_some {elements : List UInt32} {result : FlatMatrix} :
    withVector elements rows cols = some result ↔
      0 < rows ∧ 0 < cols ∧ result = ⟨rows, cols, rows * cols, elements⟩ := by
  by_cases null : rows = 0 ∨ cols = 0
  · simp only [withVector, if_pos null, reduceCtorEq, false_iff]
    omega
  · have rowsPos : 0 < rows := by omega
    have colsPos : 0 < cols := by omega
    simp [withVector, null, rowsPos, colsPos, eq_comm]

theorem WellFormed.hasShape (wellFormed : self.WellFormed) (rowsPos : 0 < self.rows)
    (colsPos : 0 < self.cols) : self.HasShape self.rows self.cols where
  rows_eq := rfl
  cols_eq := rfl
  n_eq := wellFormed.n_eq
  rows_pos := rowsPos
  cols_pos := colsPos
  length_le := by rw [wellFormed.length_eq, wellFormed.n_eq]
  length_eq := by rw [wellFormed.length_eq, wellFormed.n_eq]

theorem HasShape.wellFormed (shape : self.HasShape rows cols) : self.WellFormed where
  n_eq := by rw [shape.n_eq, shape.rows_eq, shape.cols_eq]
  length_eq := by rw [shape.length_eq, shape.n_eq]

theorem withVector_hasShape {elements : List UInt32} {result : FlatMatrix}
    (built : withVector elements rows cols = some result)
    (fits : elements.length = rows * cols) : result.HasShape rows cols := by
  rcases withVector_eq_some.mp built with ⟨rowsPos, colsPos, rfl⟩
  exact ⟨⟨rfl, rfl, rfl, rowsPos, colsPos, fits.ge⟩, fits⟩

theorem newFromSeed_hasShape (nextU32 : Seed → ℕ → UInt32) (seed : Seed)
    (rowsPos : 0 < rows) (colsPos : 0 < cols) :
    ∃ result, newFromSeed nextU32 seed rows cols = some result ∧ result.HasShape rows cols := by
  have nonNull : ¬(rows = 0 ∨ cols = 0) := by omega
  rw [newFromSeed, if_neg nonNull, withVector_eq _ rowsPos colsPos]
  refine ⟨_, rfl, ⟨⟨rfl, rfl, rfl, rowsPos, colsPos, ?_⟩, ?_⟩⟩
  · simp [Nat.mul_comm]
  · simp [Nat.mul_comm]

theorem toMatrix_eq_entry (covers : self.Covers rows cols) (i : Fin rows) (j : Fin cols) :
    self.toMatrix rows cols i j = self.entry i j := by
  rw [entry, covers.cols_eq]
  rfl

theorem rowAt_eq_ofFn (covers : self.Covers rows cols) (index : Fin rows) :
    self.rowAt index = List.ofFn (self.toMatrix rows cols index) := by
  rw [rowAt, covers.cols_eq]
  exact row_eq_ofFn covers.length_le index

theorem toMatrix_mem (covers : self.Covers rows cols) (i : Fin rows) (j : Fin cols) :
    self.toMatrix rows cols i j ∈ self.elements := by
  have inside : i * cols + j < self.elements.length :=
    (index_lt i.2 j.2).trans_le covers.length_le
  have stored : self.toMatrix rows cols i j = self.elements[i * cols + j] := by
    simp [toMatrix, RowMajor.toMatrix, List.getD_eq_getElem?_getD, inside]
  rw [stored]
  exact List.getElem_mem inside

theorem transpose_spec (covers : self.Covers rows cols) :
    ∃ result, self.transpose = some result ∧ result.HasShape cols rows ∧
      result.toMatrix cols rows = (self.toMatrix rows cols).transpose := by
  have rowsEq := covers.rows_eq
  have colsEq := covers.cols_eq
  have guard : self.n = self.rows * self.cols ∧ self.n ≤ self.elements.length := by
    rw [rowsEq, colsEq]
    exact ⟨covers.n_eq, covers.n_eq ▸ covers.length_le⟩
  rw [transpose, if_pos guard, rowsEq, colsEq,
    withVector_eq _ covers.cols_pos covers.rows_pos]
  refine ⟨_, rfl, ⟨⟨rfl, rfl, rfl, covers.cols_pos, covers.rows_pos, ?_⟩, ?_⟩, ?_⟩
  · simp
  · simp
  · apply Matrix.ext
    intro i j
    exact toMatrix_ofTable (fun i j => self.elements.getD (j * cols + i) 0) i j

/-- Adding is adding the Mathlib matrices; the vector of the sum keeps its own tail. -/
theorem add_spec {b : FlatMatrix} (covers : self.HasShape rows cols)
    (coversRight : b.Covers rows cols) :
    ∃ result, self.add b = some result ∧ result.HasShape rows cols ∧
      result.toMatrix rows cols = self.toMatrix rows cols + b.toMatrix rows cols := by
  have sameShape : self.rows = b.rows ∧ self.cols = b.cols := by
    rw [covers.rows_eq, covers.cols_eq, coversRight.rows_eq, coversRight.cols_eq]
    exact ⟨rfl, rfl⟩
  have inside : self.n ≤ self.elements.length ∧ self.n ≤ b.elements.length := by
    rw [covers.n_eq]
    exact ⟨covers.length_le, coversRight.length_le⟩
  rw [add, combine, if_pos sameShape, if_pos inside]
  have lengthSelf := covers.length_eq
  have lengthRight := coversRight.length_le
  have nEq := covers.n_eq
  refine ⟨_, rfl, ⟨⟨covers.rows_eq, covers.cols_eq, nEq, covers.rows_pos, covers.cols_pos, ?_⟩,
    ?_⟩, ?_⟩
  · simp
    omega
  · simp
    omega
  · apply Matrix.ext
    intro i j
    have position := index_lt i.2 j.2
    have inLeft : i * cols + j < self.elements.length := by omega
    have inRight : i * cols + j < b.elements.length := by omega
    simp only [toMatrix, RowMajor.toMatrix, Matrix.add_apply, List.getD_eq_getElem?_getD]
    rw [List.getElem?_append_left (by simp; omega), List.getElem?_zipWith,
      List.getElem?_take_of_lt (by omega), List.getElem?_take_of_lt (by omega),
      List.getElem?_eq_getElem inLeft, List.getElem?_eq_getElem inRight]
    rfl

theorem multTranspose_spec {a b : FlatMatrix} {inner : ℕ} (coversLeft : a.Covers rows inner)
    (coversRight : b.Covers inner cols) :
    ∃ result, multTranspose a b = some result ∧ result.HasShape rows cols ∧
      result.toMatrix rows cols = a.toMatrix rows inner * b.toMatrix inner cols := by
  rcases transpose_spec coversRight with ⟨t, transposed, tShape, tMatrix⟩
  have compatible : ¬a.cols ≠ b.rows := by
    rw [coversLeft.cols_eq, coversRight.rows_eq]
    simp
  have aRows := coversLeft.rows_eq
  have aCols := coversLeft.cols_eq
  have bCols := coversRight.cols_eq
  have inside : a.rows * a.cols ≤ a.elements.length ∧ b.cols * a.cols ≤ t.elements.length := by
    rw [aRows, aCols, bCols]
    exact ⟨coversLeft.length_le, tShape.length_le⟩
  rw [multTranspose, if_neg compatible, transposed]
  simp only [Option.bind_eq_bind, Option.bind_some, if_pos inside]
  rw [aRows, aCols, bCols, withVector_eq _ coversLeft.rows_pos coversRight.cols_pos]
  refine ⟨_, rfl, ⟨⟨rfl, rfl, rfl, coversLeft.rows_pos, coversRight.cols_pos, ?_⟩, ?_⟩, ?_⟩
  · simp
  · simp
  · apply Matrix.ext
    intro i j
    have entry := toMatrix_ofTable
      (fun i j => dot (row inner a.elements i) (row inner t.elements j)) i j
    refine entry.trans ?_
    rw [dot_row_row coversLeft.length_le tShape.length_le]
    have flipped : (RowMajor.toMatrix cols inner t.elements).transpose =
        b.toMatrix inner cols := by
      have := congrArg Matrix.transpose tMatrix
      simpa [toMatrix] using this
    rw [flipped]
    rfl

theorem multByVector_spec (covers : self.Covers rows cols) (vector : Fin cols → UInt32) :
    self.multByVector (List.ofFn vector) =
      some (.ok (List.ofFn ((self.toMatrix rows cols).mulVec vector))) := by
  have rowsEq := covers.rows_eq
  have colsEq := covers.cols_eq
  have sameLength : ¬(List.ofFn vector).length ≠ self.cols := by simp [colsEq]
  have inside : self.rows * self.cols ≤ self.elements.length := by
    rw [rowsEq, colsEq]
    exact covers.length_le
  rw [multByVector, if_neg sameLength, if_pos inside, rowsEq, colsEq]
  congr 2
  apply List.ext_getElem
  · simp
  · intro i iLt _
    have inRows : i < rows := by simpa using iLt
    have stored := row_eq_ofFn covers.length_le ⟨i, inRows⟩
    simp only [List.getElem_map, List.getElem_range, List.getElem_ofFn]
    rw [stored, dot_ofFn]
    rfl

theorem popRow_spec (rowsEq : self.rows = rows + 1) (colsEq : self.cols = cols)
    (nEq : self.n = (rows + 1) * cols) (lengthEq : self.elements.length = (rows + 1) * cols) :
    self.popRow = some (some (row cols self.elements rows),
      ⟨rows, cols, rows * cols, self.elements.take (rows * cols)⟩) := by
  have split : (rows + 1) * cols = rows * cols + cols := Nat.succ_mul rows cols
  have inside : ¬(self.elements.length < (rows + 1) * cols ∨ self.n < cols) := by omega
  simp only [popRow, rowsEq, colsEq, Nat.add_one_ne_zero, if_false, if_neg inside,
    Nat.add_sub_cancel]
  have lastRow : (self.elements.take ((rows + 1) * cols)).drop (rows * cols) =
      row cols self.elements rows := by
    rw [row, List.drop_take, split, Nat.add_sub_cancel_left]
  have rest : self.elements.drop ((rows + 1) * cols) = [] :=
    List.drop_of_length_le (by omega)
  have fewer : self.n - cols = rows * cols := by omega
  rw [lastRow, rest, fewer, List.append_nil]

end FlatMatrix

end PracticalCrypto.Frodo
