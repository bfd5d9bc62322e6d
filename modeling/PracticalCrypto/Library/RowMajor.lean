import Mathlib.Data.List.GetD
import Mathlib.Data.UInt
import Mathlib.Data.Matrix.Mul
import Mathlib.Algebra.BigOperators.Fin

/-!
# Row-major tables stored in one list

A rectangular table kept in a single list, row after row. The lemmas say how
reading position `row * cols + col`, cutting out one row, and dropping the last
row relate to the table, and how the accumulating dot product of two rows is
the finite sum that Mathlib's matrix product uses.
-/

namespace PracticalCrypto.RowMajor

universe u

variable {α : Type u}

def ofTable (rows cols : ℕ) (table : ℕ → ℕ → α) : List α :=
  (List.range rows).flatMap fun row => (List.range cols).map (table row)

/-- The elements at positions `row * cols, …, row * cols + cols - 1`. -/
def row (cols : ℕ) (elements : List α) (index : ℕ) : List α :=
  (elements.drop (index * cols)).take cols

/-- The stored list read as a matrix; positions past its end read as `0`. -/
def toMatrix [Zero α] (rows cols : ℕ) (elements : List α) :
    Matrix (Fin rows) (Fin cols) α :=
  fun index col => elements.getD (index * cols + col) 0

theorem index_lt {rows cols index col : ℕ} (indexLt : index < rows) (colLt : col < cols) :
    index * cols + col < rows * cols := by
  calc
    index * cols + col < index * cols + cols := by omega
    _ = (index + 1) * cols := by ring
    _ ≤ rows * cols := Nat.mul_le_mul_right cols indexLt

@[simp]
theorem length_ofTable (rows cols : ℕ) (table : ℕ → ℕ → α) :
    (ofTable rows cols table).length = rows * cols := by
  simp [ofTable, List.length_flatMap]

theorem ofTable_succ (rows cols : ℕ) (table : ℕ → ℕ → α) :
    ofTable (rows + 1) cols table =
      ofTable rows cols table ++ (List.range cols).map (table rows) := by
  simp [ofTable, List.range_succ, List.flatMap_append]

theorem getElem?_ofTable {rows cols index col : ℕ} (table : ℕ → ℕ → α)
    (indexLt : index < rows) (colLt : col < cols) :
    (ofTable rows cols table)[index * cols + col]? = some (table index col) := by
  induction rows with
  | zero => omega
  | succ rows ih =>
      rw [ofTable_succ]
      rcases Nat.lt_succ_iff_lt_or_eq.mp indexLt with earlier | rfl
      · rw [List.getElem?_append_left (by simpa using index_lt earlier colLt)]
        exact ih earlier
      · rw [List.getElem?_append_right (by simp)]
        simp [colLt]

theorem length_row {rows cols index : ℕ} {elements : List α}
    (covers : rows * cols ≤ elements.length) (indexLt : index < rows) :
    (row cols elements index).length = cols := by
  have := Nat.mul_le_mul_right cols indexLt
  rw [Nat.succ_mul] at this
  simp [row]
  omega

theorem getElem?_row {cols col : ℕ} (elements : List α) (index : ℕ) (colLt : col < cols) :
    (row cols elements index)[col]? = elements[index * cols + col]? := by
  simp [row, colLt]

theorem row_take {cols kept index : ℕ} (elements : List α) (indexLt : index < kept) :
    row cols (elements.take (kept * cols)) index = row cols elements index := by
  have := Nat.mul_le_mul_right cols indexLt
  rw [Nat.succ_mul] at this
  simp only [row, List.drop_take, List.take_take]
  congr 1
  omega

section Matrix

variable {R : Type u}

theorem toMatrix_apply [Zero R] {rows cols : ℕ} (elements : List R)
    (index : Fin rows) (col : Fin cols) :
    toMatrix rows cols elements index col = elements.getD (index * cols + col) 0 := rfl

theorem toMatrix_ofTable [Zero R] {rows cols : ℕ} (table : ℕ → ℕ → R)
    (index : Fin rows) (col : Fin cols) :
    toMatrix rows cols (ofTable rows cols table) index col = table index col := by
  rw [toMatrix_apply, List.getD_eq_getElem?_getD, getElem?_ofTable table index.2 col.2]
  rfl

theorem row_eq_ofFn [Zero R] {rows cols : ℕ} {elements : List R}
    (covers : rows * cols ≤ elements.length) (index : Fin rows) :
    row cols elements index = List.ofFn (toMatrix rows cols elements index) := by
  apply List.ext_getElem?
  intro col
  by_cases colLt : col < cols
  · have inside : index * cols + col < elements.length :=
      (index_lt index.2 colLt).trans_le covers
    rw [getElem?_row _ _ colLt, List.getElem?_eq_getElem inside,
      List.getElem?_eq_getElem (by simpa using colLt)]
    simp [toMatrix, List.getD_eq_getElem?_getD, inside]
  · have short := length_row covers index.2
    rw [List.getElem?_eq_none (by omega), List.getElem?_eq_none (by simp; omega)]

theorem foldl_range_add [AddCommMonoid R] (length : ℕ) (summand : ℕ → R) :
    (List.range length).foldl (fun acc index => acc + summand index) 0 =
      ∑ index : Fin length, summand index := by
  rw [← Finset.sum_range]
  induction length with
  | zero => simp
  | succ length ih => simp [List.range_succ, Finset.sum_range_succ, ih]

theorem eq_of_toMatrix_eq [Zero R] {rows cols : ℕ} {left right : List R}
    (leftLength : left.length = rows * cols) (rightLength : right.length = rows * cols)
    (same : toMatrix rows cols left = toMatrix rows cols right) : left = right := by
  apply List.ext_getElem
  · rw [leftLength, rightLength]
  · intro position inLeft inRight
    have inTable : position < rows * cols := leftLength ▸ inLeft
    have colsPos : 0 < cols := Nat.pos_of_ne_zero (by rintro rfl; simp at inTable)
    have place : position / cols * cols + position % cols = position := Nat.div_add_mod' _ _
    have entry := congrFun (congrFun same ⟨position / cols, Nat.div_lt_of_lt_mul (by
      rwa [Nat.mul_comm])⟩) ⟨position % cols, Nat.mod_lt _ colsPos⟩
    rw [toMatrix_apply, toMatrix_apply, place, List.getD_eq_getElem _ _ inLeft,
      List.getD_eq_getElem _ _ inRight] at entry
    exact entry

variable [NonUnitalNonAssocSemiring R]

def dot (left right : List R) : R :=
  (left.zip right).foldl (fun acc pair => acc + pair.1 * pair.2) 0

private theorem foldl_dot (pairs : List (R × R)) (start : R) :
    pairs.foldl (fun acc pair => acc + pair.1 * pair.2) start =
      start + (pairs.map fun pair => pair.1 * pair.2).sum := by
  induction pairs generalizing start with
  | nil => simp
  | cons pair pairs ih => simp [ih, add_assoc]

theorem dot_ofFn {length : ℕ} (left right : Fin length → R) :
    dot (List.ofFn left) (List.ofFn right) = ∑ index, left index * right index := by
  have zipped : (List.ofFn left).zip (List.ofFn right) =
      List.ofFn fun index => (left index, right index) := by
    apply List.ext_getElem
    · simp
    · simp
  rw [dot, zipped, foldl_dot, List.map_ofFn, List.sum_ofFn, zero_add]
  rfl

/-- The dot product of a stored row with a stored row of the transpose is a product entry. -/
theorem dot_row_row {rows inner cols : ℕ} {left right : List R}
    (coversLeft : rows * inner ≤ left.length) (coversRight : cols * inner ≤ right.length)
    (index : Fin rows) (col : Fin cols) :
    dot (row inner left index) (row inner right col) =
      (toMatrix rows inner left * (toMatrix cols inner right).transpose) index col := by
  rw [row_eq_ofFn coversLeft, row_eq_ofFn coversRight, dot_ofFn, Matrix.mul_apply]
  rfl

end Matrix

end PracticalCrypto.RowMajor
