import PracticalCrypto.Frodo.Protocol

/-!
# Consumption of query parameters

Starting from fresh client parameters, every state that `Query::create` can
reach is `fresh.remaining kept`: the first `kept` rows of the original `B` and
`C`. A call either finds no row left and changes nothing, or moves to
`fresh.remaining (kept - 1)`, whatever it returns. `create_remaining_succ` says
what it returns.
-/

namespace PracticalCrypto.Frodo

open RowMajor

namespace FlatMatrix

variable {self : FlatMatrix} {rows cols : ℕ}

def takeRows (self : FlatMatrix) (kept : ℕ) : FlatMatrix :=
  { self with
    rows := kept
    n := kept * self.cols
    elements := self.elements.take (kept * self.cols) }

theorem takeRows_all (shape : self.HasShape rows cols) : self.takeRows rows = self := by
  cases self with
  | mk selfRows selfCols n elements =>
      have rowsEq := shape.rows_eq
      have colsEq := shape.cols_eq
      have nEq := shape.n_eq
      have lengthEq := shape.length_eq
      simp only at rowsEq colsEq nEq lengthEq
      simp [takeRows, rowsEq, colsEq, nEq, List.take_of_length_le, lengthEq]

theorem WellFormed.takeRows (wellFormed : self.WellFormed) {kept : ℕ}
    (keptLe : kept ≤ self.rows) : (self.takeRows kept).WellFormed := by
  have within := Nat.mul_le_mul_right self.cols keptLe
  have lengthEq := wellFormed.length_eq.trans wellFormed.n_eq
  constructor
  · rfl
  · simp only [FlatMatrix.takeRows, List.length_take]
    omega

theorem WellFormed.popRow_eq (wellFormed : self.WellFormed) {kept : ℕ}
    (rowsEq : self.rows = kept + 1) :
    self.popRow = some (some (self.rowAt kept), self.takeRows kept) := by
  have nEq : self.n = (kept + 1) * self.cols := by rw [wellFormed.n_eq, rowsEq]
  exact popRow_spec rowsEq rfl nEq (wellFormed.length_eq.trans nEq)

theorem WellFormed.isEmpty_eq (wellFormed : self.WellFormed) :
    self.isEmpty = decide (self.rows = 0) := by
  by_cases noRow : self.rows = 0
  · have noElement : self.elements = [] := by
      rw [← List.length_eq_zero_iff, wellFormed.length_eq, wellFormed.n_eq, noRow, Nat.zero_mul]
    simp [isEmpty, noRow, noElement]
  · simp [isEmpty, noRow]

theorem WellFormed.length_rowAt (wellFormed : self.WellFormed) {index : ℕ}
    (inRows : index < self.rows) : (self.rowAt index).length = self.cols := by
  apply length_row _ inRows
  rw [wellFormed.length_eq, wellFormed.n_eq]

theorem getD_rowAt {index col : ℕ} (inCols : col < self.cols) :
    (self.rowAt index).getD col 0 = self.entry index col := by
  rw [List.getD_eq_getElem?_getD, rowAt, getElem?_row _ _ inCols, entry,
    List.getD_eq_getElem?_getD]

theorem rowAt_takeRows {index kept : ℕ} (inKept : index < kept) :
    (self.takeRows kept).rowAt index = self.rowAt index :=
  row_take self.elements inKept

theorem takeRows_takeRows {fewer kept : ℕ} (within : fewer ≤ kept) :
    (self.takeRows kept).takeRows fewer = self.takeRows fewer := by
  simp [takeRows, List.take_take, Nat.min_eq_left (Nat.mul_le_mul_right self.cols within)]

end FlatMatrix

namespace ClientParams

def remaining (fresh : ClientParams) (kept : ℕ) : ClientParams :=
  { fresh with B := fresh.B.takeRows kept, C := fresh.C.takeRows kept }

/-- Fresh parameters for `queries` queries on a database of `m` rows and `w` columns. -/
structure Fresh (params : ClientParams) (queries m w : ℕ) : Prop where
  B_shape : params.B.HasShape queries m
  C_shape : params.C.HasShape queries w
  bits_le : params.plaintextBits ≤ 31

theorem Fresh.remaining_all {params : ClientParams} {queries m w : ℕ}
    (fresh : params.Fresh queries m w) : params.remaining queries = params := by
  simp [remaining, FlatMatrix.takeRows_all fresh.B_shape, FlatMatrix.takeRows_all fresh.C_shape]

end ClientParams

section Parameters

variable {p : ℕ}

theorem getPlaintextSize_eq (small : p ≤ 31) :
    getPlaintextSize p = some (UInt32.ofNat (2 ^ p)) := by
  have reduced : p % 2 ^ 32 = p := Nat.mod_eq_of_lt (by omega)
  rw [getPlaintextSize, reduced, if_pos (by omega)]

theorem toNat_plaintextSize (small : p ≤ 31) : (UInt32.ofNat (2 ^ p)).toNat = 2 ^ p := by
  rw [UInt32.toNat_ofNat']
  exact Nat.mod_eq_of_lt (Nat.pow_lt_pow_right (by omega) (by omega))

theorem ne_zero_of_toNat_pos {value : UInt32} (positive : 0 < value.toNat) : value ≠ 0 := by
  rintro rfl
  exact absurd positive (Nat.lt_irrefl 0)

theorem plaintextSize_ne_zero (small : p ≤ 31) : UInt32.ofNat (2 ^ p) ≠ 0 := by
  apply ne_zero_of_toNat_pos
  rw [toNat_plaintextSize small]
  exact Nat.two_pow_pos p

theorem getRoundingFactor_eq (small : p ≤ 31) :
    getRoundingFactor p = some (UInt32.ofNat (2 ^ 32 / 2 ^ p)) := by
  simp only [getRoundingFactor, getPlaintextSize_eq small, Option.bind_eq_bind, Option.bind_some,
    if_neg (plaintextSize_ne_zero small), toNat_plaintextSize small, modulus]

theorem toNat_roundingFactor (bitsPos : 1 ≤ p) :
    (UInt32.ofNat (2 ^ 32 / 2 ^ p)).toNat = 2 ^ 32 / 2 ^ p := by
  apply UInt32.toNat_ofNat_of_lt'
  exact Nat.div_lt_self (by norm_num) (Nat.one_lt_two_pow (by omega))

end Parameters

namespace Query

variable {cp : ClientParams} {factor : UInt32} {bRows cRows : ℕ}

theorem create_without_rows (bWellFormed : cp.B.WellFormed) (cWellFormed : cp.C.WellFormed)
    (noRow : cp.B.rows = 0 ∨ cp.C.rows = 0) (rowIndex : ℕ) :
    create cp rowIndex = some (.error .errorQueryParamsReused, cp) := by
  have empty : (cp.B.isEmpty || cp.C.isEmpty) = true := by
    rw [bWellFormed.isEmpty_eq, cWellFormed.isEmpty_eq]
    simpa using noRow
  rw [create, if_pos empty]

/-- With a row left in both matrices the call consumes the last one of each. -/
theorem create_eq (bWellFormed : cp.B.WellFormed) (cWellFormed : cp.C.WellFormed)
    (bRowsEq : cp.B.rows = bRows + 1) (cRowsEq : cp.C.rows = cRows + 1)
    (rounding : getRoundingFactor cp.plaintextBits = some factor) (rowIndex : ℕ) :
    create cp rowIndex =
      some (if rowIndex < cp.B.cols ∧
          (cp.B.entry bRows rowIndex).toNat + factor.toNat < 2 ^ 32 then
        .ok ⟨(cp.B.rowAt bRows).set rowIndex (cp.B.entry bRows rowIndex + factor),
          cp.C.rowAt cRows⟩
        else .error .errorOverflownAdd,
        { cp with B := cp.B.takeRows bRows, C := cp.C.takeRows cRows }) := by
  have notEmpty : ¬(cp.B.isEmpty || cp.C.isEmpty) = true := by
    rw [bWellFormed.isEmpty_eq, cWellFormed.isEmpty_eq, bRowsEq, cRowsEq]
    simp
  have rowLength : (cp.B.rowAt bRows).length = cp.B.cols :=
    bWellFormed.length_rowAt (by omega)
  rw [create, if_neg notEmpty]
  simp only [bWellFormed.popRow_eq bRowsEq, cWellFormed.popRow_eq cRowsEq, rounding, rowLength,
    Option.bind_eq_bind, Option.bind_some]
  by_cases inRow : rowIndex < cp.B.cols
  · simp only [inRow, if_true, true_and, FlatMatrix.getD_rowAt inRow]
    split
    · rfl
    · rfl
  · simp [inRow]

variable {params : ClientParams} {queries m w kept : ℕ}

theorem create_remaining_zero (bShape : params.B.HasShape queries m)
    (cShape : params.C.HasShape queries w) (rowIndex : ℕ) :
    create (params.remaining 0) rowIndex =
      some (.error .errorQueryParamsReused, params.remaining 0) :=
  create_without_rows (bShape.wellFormed.takeRows (Nat.zero_le _))
    (cShape.wellFormed.takeRows (Nat.zero_le _)) (.inl rfl) rowIndex

/-- With a row left the call consumes it and its result depends on that row alone. -/
theorem create_remaining_of_rounding (bShape : params.B.HasShape queries m)
    (cShape : params.C.HasShape queries w)
    (rounding : getRoundingFactor params.plaintextBits = some factor) (keptLt : kept < queries)
    (rowIndex : ℕ) :
    create (params.remaining (kept + 1)) rowIndex =
      some (if rowIndex < m ∧ (params.B.entry kept rowIndex).toNat + factor.toNat < 2 ^ 32 then
        .ok ⟨(params.B.rowAt kept).set rowIndex (params.B.entry kept rowIndex + factor),
          params.C.rowAt kept⟩
        else .error .errorOverflownAdd, params.remaining kept) := by
  have bRows := bShape.rows_eq
  have cRows := cShape.rows_eq
  have consumed := create_eq
    (show (params.remaining (kept + 1)).B.WellFormed from bShape.wellFormed.takeRows (by omega))
    (cShape.wellFormed.takeRows (by omega)) rfl rfl rounding rowIndex
  have bKept : (params.B.takeRows (kept + 1)).rowAt kept = params.B.rowAt kept :=
    FlatMatrix.rowAt_takeRows (Nat.lt_succ_self kept)
  have cKept : (params.C.takeRows (kept + 1)).rowAt kept = params.C.rowAt kept :=
    FlatMatrix.rowAt_takeRows (Nat.lt_succ_self kept)
  have sameCols : (params.B.takeRows (kept + 1)).cols = m := bShape.cols_eq
  simp only [ClientParams.remaining, bKept, cKept, sameCols,
    FlatMatrix.takeRows_takeRows (Nat.le_succ kept)] at consumed ⊢
  rw [consumed]
  by_cases inRow : rowIndex < m
  · have sameEntry : (params.B.takeRows (kept + 1)).entry kept rowIndex =
        params.B.entry kept rowIndex := by
      rw [← FlatMatrix.getD_rowAt (by omega), bKept, FlatMatrix.getD_rowAt]
      rw [bShape.cols_eq]
      exact inRow
    rw [sameEntry]
  · simp [inRow]

theorem create_remaining_succ (fresh : params.Fresh queries m w) (keptLt : kept < queries)
    (rowIndex : ℕ) :
    create (params.remaining (kept + 1)) rowIndex =
      some (if rowIndex < m ∧ (params.B.entry kept rowIndex).toNat +
          (UInt32.ofNat (2 ^ 32 / 2 ^ params.plaintextBits)).toNat < 2 ^ 32 then
        .ok ⟨(params.B.rowAt kept).set rowIndex
          (params.B.entry kept rowIndex + UInt32.ofNat (2 ^ 32 / 2 ^ params.plaintextBits)),
          params.C.rowAt kept⟩
        else .error .errorOverflownAdd, params.remaining kept) :=
  create_remaining_of_rounding fresh.B_shape fresh.C_shape (getRoundingFactor_eq fresh.bits_le)
    keptLt rowIndex

/-- Any sequence of calls consumes one row each until none is left. -/
theorem createAll_remaining (fresh : params.Fresh queries m w) (rowIndices : List ℕ)
    (keptLe : kept ≤ queries) :
    createAll (params.remaining kept) rowIndices =
      some (params.remaining (kept - rowIndices.length)) := by
  induction rowIndices generalizing kept with
  | nil => simp [createAll]
  | cons rowIndex later ih =>
      rcases kept with _ | kept
      -- once the rows are used up, every further call finds them used up
      · simp only [createAll, create_remaining_zero fresh.B_shape fresh.C_shape,
          Option.bind_eq_bind, Option.bind_some]
        simpa using ih (Nat.zero_le _)
      · simp only [createAll, create_remaining_succ fresh keptLe, Option.bind_eq_bind,
          Option.bind_some]
        rw [ih (by omega)]
        simp

end Query

end PracticalCrypto.Frodo
