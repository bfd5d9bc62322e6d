import PracticalCrypto.Frodo.Format
import PracticalCrypto.Frodo.QueryRuns
import PracticalCrypto.Frodo.Retrieval

/-!
# The elements and widths that `Matrix::new_from_vals` takes

`Matrix::new_from_vals` reads every element in `row_width` cells of `plaintext_bits`
bits. A text that does not decode and a cell above 32 bits are reported. An element
whose bits end before its last cell starts is not: the slice of that cell starts past
the bits and panics, unless an earlier element was reported.

The widths that it takes are those of its cells, up to 32 bits and beyond for short
elements. The arithmetic of the client stops at 31 bits.
-/

namespace PracticalCrypto.Frodo

open Wires

section Model

variable (base64 : Base64Crate)

/--
`Matrix::new_from_vals` with the reservation of its result, before the loops:
`Vec::with_capacity` panics above `isize::MAX` bytes.
-/
def FlatMatrix.newFromValsReserving (vals : List String) (rows elemSize plaintextBits : ℕ) :
    ExceptT (ValueError base64) Option FlatMatrix :=
  if 2 ^ 63 ≤ 4 * (rows * rowWidthOf elemSize plaintextBits) then ExceptT.mk none
  else FlatMatrix.newFromVals base64 vals rows elemSize plaintextBits

/-- The text does not decode, or the first cell of its bits is above 32 bits. -/
def Reported (plaintextBits : ℕ) (data : String) : Prop :=
  match base64.decode data with
  | .error _ => True
  | .ok bytes => 32 < plaintextBits ∧ 32 < 8 * bytes.length

/-- The text decodes to bits that end before the last of its cells starts. -/
def Short (plaintextBits rowWidth : ℕ) (data : String) : Prop :=
  match base64.decode data with
  | .error _ => False
  | .ok bytes => ¬(32 < plaintextBits ∧ 32 < 8 * bytes.length) ∧
      8 * bytes.length < (rowWidth - 1) * plaintextBits

end Model

section Loops

variable {ε β : Type} {f : ℕ → ExceptT ε Option β}

/-- A loop panics exactly if some round does and every round before it returns. -/
theorem run_mapM_range'_eq_none_iff (start n : ℕ) :
    ((List.range' start n).mapM f).run = none ↔
      ∃ i, start ≤ i ∧ i < start + n ∧ (f i).run = none ∧
        ∀ k, start ≤ k → k < i → ∃ value, (f k).run = some (.ok value) := by
  induction n generalizing start with
  | zero =>
      simp only [List.range'_zero, List.mapM_nil, Nat.add_zero]
      apply iff_of_false
      · intro panics
        cases panics
      · rintro ⟨i, fromStart, beforeEnd, -⟩
        omega
  | succ n ih =>
      rw [List.range'_succ, List.mapM_cons]
      match first : f start with
      | none =>
          apply iff_of_true rfl
          refine ⟨start, le_rfl, by omega, first, ?_⟩
          intro k fromStart before
          omega
      | some (.error error) =>
          apply iff_of_false
          · intro panics
            cases panics
          · rintro ⟨i, fromStart, -, panics, earlier⟩
            rcases Nat.eq_or_lt_of_le fromStart with rfl | later
            · rw [first] at panics
              cases panics
            · rcases earlier start le_rfl later with ⟨value, returned⟩
              rw [first] at returned
              cases returned
      | some (.ok value) =>
          have rest : ((do
              let head ← (some (.ok value) : ExceptT ε Option β)
              let tail ← (List.range' (start + 1) n).mapM f
              pure (head :: tail)) : ExceptT ε Option (List β)).run = none ↔
              ((List.range' (start + 1) n).mapM f).run = none := by
            match (List.range' (start + 1) n).mapM f with
            | none => exact iff_of_true rfl rfl
            | some (.error _) | some (.ok _) => exact iff_of_false nofun nofun
          refine rest.trans ((ih (start + 1)).trans ?_)
          constructor
          · rintro ⟨i, fromNext, beforeEnd, panics, earlier⟩
            refine ⟨i, by omega, by omega, panics, ?_⟩
            intro k fromStart before
            rcases Nat.eq_or_lt_of_le fromStart with rfl | later
            · exact ⟨value, first⟩
            · exact earlier k later before
          · rintro ⟨i, fromStart, beforeEnd, panics, earlier⟩
            rcases Nat.eq_or_lt_of_le fromStart with rfl | later
            · rw [first] at panics
              cases panics
            · refine ⟨i, later, by omega, panics, ?_⟩
              intro k fromNext before
              exact earlier k (by omega) before

theorem run_mapM_range_eq_none_iff (n : ℕ) :
    ((List.range n).mapM f).run = none ↔
      ∃ i < n, (f i).run = none ∧ ∀ k < i, ∃ value, (f k).run = some (.ok value) := by
  rw [List.range_eq_range', run_mapM_range'_eq_none_iff]
  simp

/-- A loop that does not panic and whose first round fails returns the failure. -/
theorem run_mapM_range_of_error {n : ℕ} {error : ε} (positive : 0 < n)
    (fails : (f 0).run = some (.error error)) :
    ((List.range n).mapM f).run = some (.error error) := by
  have failed : f 0 = throw error := fails
  obtain ⟨rest, rfl⟩ := Nat.exists_eq_succ_of_ne_zero positive.ne'
  rw [List.range_succ_eq_map, List.mapM_cons, failed]
  rfl

theorem exists_first {P : ℕ → Prop} {n : ℕ} (exists_lt : ∃ i < n, P i) :
    ∃ i < n, P i ∧ ∀ k < i, ¬P k := by
  classical
  have found : ∃ i, i < n ∧ P i := exists_lt
  refine ⟨Nat.find found, (Nat.find_spec found).1, (Nat.find_spec found).2, ?_⟩
  intro k before holds
  exact Nat.find_min found before ⟨before.trans (Nat.find_spec found).1, holds⟩

end Loops

section Rows

variable {base64 : Base64Crate} {plaintextBits rowWidth : ℕ} {data : String}

theorem valueCell_eq_none {bits : List Bool} {j : ℕ} (beyond : bits.length < j * plaintextBits) :
    valueCell bits plaintextBits j = none := by
  have next : (j + 1) * plaintextBits = j * plaintextBits + plaintextBits := Nat.succ_mul _ _
  rw [valueCell, if_neg (by omega), if_neg (by omega)]

theorem valueCell_ok {bits : List Bool} {j : ℕ} (inBits : j * plaintextBits ≤ bits.length)
    (fits : ¬(32 < plaintextBits ∧ 32 < bits.length)) :
    ∃ cell, valueCell bits plaintextBits j = some (.ok cell) := by
  have short : (slice bits (j * plaintextBits) plaintextBits).length ≤ 32 := by
    rw [length_slice]
    omega
  rcases bitsToU32Le_spec short with ⟨cell, parsed, -⟩
  exact ⟨cell, by rw [valueCell_eq inBits, parsed]⟩

theorem valueCell_zero_error {bits : List Bool} (wide : 32 < plaintextBits)
    (long : 32 < bits.length) : ∃ error, valueCell bits plaintextBits 0 = some (.error error) := by
  have tooLong : 4 < (bitsToBytesLe (slice bits (0 * plaintextBits) plaintextBits)).length := by
    rw [length_bitsToBytesLe, length_slice]
    omega
  rw [valueCell_eq (by omega), bitsToU32Le]
  exact ⟨_, congrArg some (if_pos tooLong)⟩

theorem Short.not_reported (short : Short base64 plaintextBits rowWidth data) :
    ¬Reported base64 plaintextBits data := by
  cases decoded : base64.decode data with
  | error error => simp [Short, decoded] at short
  | ok bytes =>
      simp only [Short, Reported, decoded] at short ⊢
      exact short.1

/-- The last cell starts past the bits exactly if some cell does. -/
theorem exists_beyond_iff {size : ℕ} :
    (∃ j < rowWidth, size < j * plaintextBits) ↔ size < (rowWidth - 1) * plaintextBits := by
  constructor
  · rintro ⟨j, inRow, beyond⟩
    exact beyond.trans_le (Nat.mul_le_mul_right _ (by omega))
  · intro beyond
    refine ⟨rowWidth - 1, ?_, beyond⟩
    rcases Nat.eq_zero_or_pos rowWidth with rfl | positive
    · simp at beyond
    · omega

theorem valueRow_of_reported (positive : 0 < rowWidth)
    (reported : Reported base64 plaintextBits data) :
    ∃ error, (valueRow base64 plaintextBits rowWidth data).run = some (.error error) := by
  rw [valueRow]
  cases decoded : base64.decode data with
  | error error => exact ⟨_, rfl⟩
  | ok bytes =>
    simp only [Reported, decoded] at reported
    have long : 32 < (bytesToBitsLe bytes).length := by simpa using reported.2
    rcases valueCell_zero_error reported.1 long with ⟨error, failed⟩
    refine ⟨.errorUnexpectedInputSize error, run_mapM_range_of_error positive ?_⟩
    rw [failed]
    rfl

/-- An element that is not reported panics at its first cell past the bits, if it has one. -/
theorem valueRow_of_not_reported (notReported : ¬Reported base64 plaintextBits data) :
    (Short base64 plaintextBits rowWidth data →
      (valueRow base64 plaintextBits rowWidth data).run = none) ∧
    (¬Short base64 plaintextBits rowWidth data →
      ∃ row, (valueRow base64 plaintextBits rowWidth data).run = some (.ok row)) := by
  rw [valueRow, Short]
  cases decoded : base64.decode data with
  | error error => simp [Reported, decoded] at notReported
  | ok bytes =>
    simp only [Reported, decoded] at notReported
    have size : (bytesToBitsLe bytes).length = 8 * bytes.length := by simp
    have returns : ∀ j, j * plaintextBits ≤ 8 * bytes.length →
        ∃ cell, valueCell (bytesToBitsLe bytes) plaintextBits j = some (.ok cell) := by
      intro j inBits
      exact valueCell_ok (size ▸ inBits) (size ▸ notReported)
    simp only [notReported, not_false_eq_true, true_and, ← exists_beyond_iff]
    constructor
    · intro some_beyond
      rcases exists_first some_beyond with ⟨j, inRow, beyond, first⟩
      apply (run_mapM_range_eq_none_iff rowWidth).mpr
      refine ⟨j, inRow, ?_, ?_⟩
      · rw [valueCell_eq_none (by omega)]
        rfl
      · intro k before
        rcases returns k (Nat.not_lt.mp (first k before)) with ⟨cell, returned⟩
        exact ⟨cell, by rw [returned]; rfl⟩
    · intro none_beyond
      have inBits : ∀ j < rowWidth, j * plaintextBits ≤ 8 * bytes.length := by
        intro j inRow
        exact Nat.not_lt.mp fun beyond => none_beyond ⟨j, inRow, beyond⟩
      choose! cells returned using fun j inRow => returns j (inBits j inRow)
      refine ⟨(List.range rowWidth).map cells, ?_⟩
      apply Handler.mapM_eq_pure
      intro j member
      rw [returned j (List.mem_range.mp member)]
      rfl

end Rows

section Database

variable {base64 : Base64Crate}

/-- `Matrix::new_from_vals` panics exactly in its reservation or in its loops. -/
theorem newFromValsReserving_eq_none_iff {vals : List String} {rows elemSize plaintextBits : ℕ}
    (rowsPos : 0 < rows) (sizePos : 0 < elemSize) (bitsPos : 0 < plaintextBits) :
    (FlatMatrix.newFromValsReserving base64 vals rows elemSize plaintextBits).run = none ↔
      2 ^ 63 ≤ 4 * (rows * rowWidthOf elemSize plaintextBits) ∨
        ((List.range rows).mapM (indexedRow base64 vals plaintextBits
          (rowWidthOf elemSize plaintextBits))).run = none := by
  rw [FlatMatrix.newFromValsReserving]
  split
  case isTrue tooLarge => exact iff_of_true rfl (.inl tooLarge)
  case isFalse fits =>
    have notNull : ¬(rows = 0 ∨ plaintextBits = 0) := by omega
    rw [FlatMatrix.newFromVals, if_neg notNull]
    simp only [FlatMatrix.withVector_eq _ rowsPos (rowWidthOf_pos sizePos bitsPos), fits, false_or]
    rcases (List.range rows).mapM (indexedRow base64 vals plaintextBits
        (rowWidthOf elemSize plaintextBits)) with _ | ⟨_ | _⟩
    · exact iff_of_true rfl rfl
    · exact iff_of_false (Option.some_ne_none _) (Option.some_ne_none _)
    · exact iff_of_false (Option.some_ne_none _) (Option.some_ne_none _)

/--
`Matrix::new_from_vals` returns, a matrix or an error, exactly if its result can be
reserved and every element that ends before its last cell comes after a reported one.
-/
theorem newFromVals_returns_iff (base64 : Base64Crate) (vals : List String)
    (rows elemSize plaintextBits : ℕ) (rowsPos : 0 < rows) (enough : rows ≤ vals.length)
    (sizePos : 0 < elemSize) (bitsPos : 0 < plaintextBits) :
    (FlatMatrix.newFromValsReserving base64 vals rows elemSize plaintextBits).run ≠ none ↔
      4 * (rows * rowWidthOf elemSize plaintextBits) < 2 ^ 63 ∧
        ∀ i < rows, Short base64 plaintextBits (rowWidthOf elemSize plaintextBits)
            (vals.getD i "") →
          ∃ k < i, Reported base64 plaintextBits (vals.getD k "") := by
  have widthPos := rowWidthOf_pos sizePos bitsPos
  have indexed : ∀ i < rows, indexedRow base64 vals plaintextBits
      (rowWidthOf elemSize plaintextBits) i =
        valueRow base64 plaintextBits (rowWidthOf elemSize plaintextBits) (vals.getD i "") := by
    intro i inRows
    have inVals : i < vals.length := by omega
    simp [indexedRow, inVals]
  rw [Ne, newFromValsReserving_eq_none_iff rowsPos sizePos bitsPos, not_or, Nat.not_le,
    run_mapM_range_eq_none_iff]
  apply and_congr_right'
  constructor
  · intro noPanic i inRows short
    by_contra notAfter
    have notReported : ∀ k < i, ¬Reported base64 plaintextBits (vals.getD k "") := by
      intro k before reported
      exact notAfter ⟨k, before, reported⟩
    -- the first short element panics, since nothing before it was reported
    rcases exists_first (P := fun i => Short base64 plaintextBits
      (rowWidthOf elemSize plaintextBits) (vals.getD i "")) ⟨i, Nat.lt_succ_self i, short⟩ with
      ⟨first, before, firstShort, earlier⟩
    apply noPanic
    refine ⟨first, by omega, ?_, ?_⟩
    · rw [indexed first (by omega)]
      exact (valueRow_of_not_reported firstShort.not_reported).1 firstShort
    · intro k beforeFirst
      rw [indexed k (by omega)]
      exact (valueRow_of_not_reported (notReported k (by omega))).2 (earlier k beforeFirst)
  · rintro shortAfter ⟨i, inRows, panics, earlier⟩
    rw [indexed i inRows] at panics
    have notReported : ¬Reported base64 plaintextBits (vals.getD i "") := by
      intro reported
      rcases valueRow_of_reported widthPos reported with ⟨error, failed⟩
      rw [failed] at panics
      cases panics
    have short : Short base64 plaintextBits (rowWidthOf elemSize plaintextBits)
        (vals.getD i "") := by
      by_contra notShort
      rcases (valueRow_of_not_reported notReported).2 notShort with ⟨row, returned⟩
      rw [returned] at panics
      cases panics
    rcases shortAfter i inRows short with ⟨k, before, reported⟩
    rcases valueRow_of_reported widthPos reported with ⟨error, failed⟩
    rcases earlier k before with ⟨row, returned⟩
    rw [indexed k (by omega), failed] at returned
    cases returned

theorem newFromVals_returns_iff_two_bytes :
    (FlatMatrix.newFromValsReserving standardBase64 ["AQI="] 1 16 8).run ≠ none := by
  apply (newFromVals_returns_iff standardBase64 ["AQI="] 1 16 8 (by decide) (by decide)
    (by decide) (by decide)).mpr
  constructor
  · decide
  · intro i first short
    rw [Nat.lt_one_iff.mp first] at short
    exact absurd short.2 (by decide)

/-- An empty element of a declared size of two cells. -/
theorem newFromVals_empty_element :
    standardBase64.decode "" = .ok [] ∧
      (FlatMatrix.newFromValsReserving standardBase64 [""] 1 16 8).run = none :=
  ⟨rfl, rfl⟩

end Database

section Widths

/-- Every panic of the client at a width is one of a row or of an entry that is missing. -/
structure DecodesSafely (plaintextBits dbW : ℕ) : Prop where
  plaintextSize : getPlaintextSize plaintextBits ≠ none
  roundingFactor : getRoundingFactor plaintextBits ≠ none
  roundingFloor : getRoundingFloor plaintextBits ≠ none
  create : ∀ (cp : ClientParams) (rowIndex : ℕ), cp.plaintextBits = plaintextBits →
    cp.dbW = dbW → Query.create cp rowIndex = none → cp.B.Lacks ∨ cp.C.Lacks
  parseResponse : ∀ (query : Query) (cp : ClientParams) (response : Response),
    cp.plaintextBits = plaintextBits → cp.dbW = dbW → query.parseResponse cp response = none →
    query.c.length < dbW ∨ response.c.length < dbW

variable {p plaintextBits dbW : ℕ}

theorem getPlaintextSize_mod (plaintextBits : ℕ) :
    getPlaintextSize plaintextBits = getPlaintextSize (plaintextBits % 2 ^ 32) := by
  simp [getPlaintextSize]

theorem getRoundingFloor_eq {factor : UInt32}
    (rounding : getRoundingFactor plaintextBits = some factor) :
    getRoundingFloor plaintextBits = some (factor / 2) := by
  simp [getRoundingFloor, rounding]

theorem parseColumn_returns (positive : 1 ≤ p) (small : p ≤ 31) (floor unscaledRes : UInt32) :
    ∃ value, Query.parseColumn (UInt32.ofNat (2 ^ 32 / 2 ^ p)) floor (UInt32.ofNat (2 ^ p))
      unscaledRes = some value := by
  have notZero : ¬(UInt32.ofNat (2 ^ 32 / 2 ^ p) = 0 ∨ UInt32.ofNat (2 ^ p) = 0) := by
    simp only [roundingFactor_ne_zero positive small, plaintextSize_ne_zero small, or_self,
      not_false_eq_true]
  have two : 2 ≤ 2 ^ 32 / 2 ^ p := by
    rw [Nat.pow_div (by omega) (by omega)]
    exact Nat.le_self_pow (by omega) 2
  have room : (unscaledRes / UInt32.ofNat (2 ^ 32 / 2 ^ p)).toNat + 1 < 2 ^ 32 := by
    rw [UInt32.toNat_div, toNat_roundingFactor positive]
    have bound := unscaledRes.toNat_lt
    have half : unscaledRes.toNat / (2 ^ 32 / 2 ^ p) ≤ unscaledRes.toNat / 2 :=
      Nat.div_le_div_left two (by decide)
    omega
  simp only [Query.parseColumn, if_neg notZero, if_pos room]
  split
  · exact ⟨_, rfl⟩
  · exact ⟨_, rfl⟩

theorem decodesSafely_of_small (positive : 1 ≤ plaintextBits % 2 ^ 32)
    (small : plaintextBits % 2 ^ 32 ≤ 31) : DecodesSafely plaintextBits dbW := by
  have size := getPlaintextSize_mod plaintextBits
  rw [getPlaintextSize_eq small] at size
  have factor := getRoundingFactor_mod plaintextBits
  rw [getRoundingFactor_eq small] at factor
  have floor := getRoundingFloor_eq factor
  refine ⟨by simp [size], by simp [factor], by simp [floor], ?_, ?_⟩
  · rintro cp rowIndex rfl - panics
    by_contra enough
    rcases not_or.mp enough with ⟨bEnough, cEnough⟩
    by_cases empty : cp.B.isEmpty ∨ cp.C.isEmpty
    · have atOnce : (cp.B.isEmpty || cp.C.isEmpty) = true := by simpa using empty
      rw [Query.create, if_pos atOnce] at panics
      cases panics
    · rcases Option.ne_none_iff_exists'.mp (mt FlatMatrix.popRow_eq_none_iff.mp bEnough) with
        ⟨⟨b, B⟩, bPopped⟩
      rcases Option.ne_none_iff_exists'.mp (mt FlatMatrix.popRow_eq_none_iff.mp cEnough) with
        ⟨⟨c, C⟩, cPopped⟩
      rw [create_of_popRow empty bPopped cPopped factor] at panics
      cases panics
  · rintro query cp response rfl rfl panics
    by_contra enough
    rcases not_or.mp enough with ⟨queryEnough, responseEnough⟩
    have columns : ∀ i < cp.dbW, ∃ value, (do
        let received ← response.c[i]?
        let unmask ← query.c[i]?
        Query.parseColumn (UInt32.ofNat (2 ^ 32 / 2 ^ (cp.plaintextBits % 2 ^ 32)))
          (UInt32.ofNat (2 ^ 32 / 2 ^ (cp.plaintextBits % 2 ^ 32)) / 2)
          (UInt32.ofNat (2 ^ (cp.plaintextBits % 2 ^ 32))) (received - unmask)) = some value := by
      intro i inWidth
      have inResponse : i < response.c.length := by omega
      have inQuery : i < query.c.length := by omega
      simp only [List.getElem?_eq_getElem inResponse, List.getElem?_eq_getElem inQuery,
        Option.bind_eq_bind, Option.bind_some]
      exact parseColumn_returns positive small _ _
    choose! values decoded using columns
    have returned : query.parseResponse cp response =
        some ((List.range cp.dbW).map values) := by
      simp only [Query.parseResponse, factor, floor, size, Option.bind_eq_bind, Option.bind_some]
      apply Handler.mapM_eq_pure
      intro i member
      exact decoded i (List.mem_range.mp member)
    rw [returned] at panics
    cases panics

/-- A width that is zero in 32 bits gives a factor of zero, and the first column divides by it. -/
theorem parseResponse_of_zero (zero : plaintextBits % 2 ^ 32 = 0) (dbWPos : 0 < dbW) :
    Query.parseResponse ⟨[], List.replicate dbW 0⟩
      ⟨0, 0, plaintextBits, dbW, ⟨0, 0, 0, []⟩, ⟨0, 0, 0, []⟩⟩ ⟨List.replicate dbW 0⟩ = none := by
  have size : getPlaintextSize plaintextBits = some 1 := by
    rw [getPlaintextSize_mod, zero]
    rfl
  have factor : getRoundingFactor plaintextBits = some 0 := by
    rw [getRoundingFactor_mod, zero]
    rfl
  obtain ⟨later, rfl⟩ := Nat.exists_eq_succ_of_ne_zero dbWPos.ne'
  simp only [Query.parseResponse, size, factor, getRoundingFloor_eq factor, Option.bind_eq_bind,
    Option.bind_some, List.range_succ_eq_map, List.mapM_cons, List.getElem?_replicate, dbWPos,
    if_true]
  rfl

theorem newFromVals_cols_pos {base64 : Base64Crate} {vals : List String} {rows elemSize : ℕ}
    {db : FlatMatrix}
    (accepted : FlatMatrix.newFromVals base64 vals rows elemSize plaintextBits = pure db) :
    0 < db.cols := by
  rw [FlatMatrix.newFromVals] at accepted
  split at accepted
  · cases accepted
  · rcases bind_eq_pure accepted with ⟨result, -, wrapped⟩
    rcases Option.map_eq_some_iff.mp wrapped with ⟨matrix, whole, same⟩
    rcases FlatMatrix.withVector_eq_some.mp whole with ⟨-, notNull, rfl⟩
    cases same
    exact notNull

/--
The client decodes with a width that `Matrix::new_from_vals` took exactly if the width is
between 1 and 31 as a 32-bit number.
-/
theorem newFromVals_decodesSafely_iff (base64 : Base64Crate) (vals : List String)
    (rows elemSize plaintextBits : ℕ) (db : FlatMatrix)
    (accepted : FlatMatrix.newFromVals base64 vals rows elemSize plaintextBits = pure db) :
    DecodesSafely plaintextBits db.cols ↔
      1 ≤ plaintextBits % 2 ^ 32 ∧ plaintextBits % 2 ^ 32 ≤ 31 := by
  have columns : 0 < db.cols := newFromVals_cols_pos accepted
  constructor
  · intro safe
    have power : plaintextBits % 2 ^ 32 < 32 := by
      by_contra large
      apply safe.plaintextSize
      rw [getPlaintextSize, if_neg large]
    refine ⟨?_, by omega⟩
    by_contra notPositive
    have missing := safe.parseResponse _ _ _ rfl rfl
      (parseResponse_of_zero (by omega) columns)
    simp at missing
  · rintro ⟨positive, small⟩
    exact decodesSafely_of_small positive small

theorem newFromVals_decodesSafely_eight_bits :
    FlatMatrix.newFromVals standardBase64 ["AQI="] 1 16 8 = pure ⟨1, 2, 2, [1, 2]⟩ ∧
      DecodesSafely 8 2 :=
  ⟨rfl, (newFromVals_decodesSafely_iff standardBase64 ["AQI="] 1 16 8 ⟨1, 2, 2, [1, 2]⟩ rfl).mpr
    (by decide)⟩

/-- An element of 32 bits fits in one cell of 32 bits, and `2u32.pow(32)` overflows. -/
theorem newFromVals_thirtyTwo_bits :
    FlatMatrix.newFromVals standardBase64 ["AQIDBA=="] 1 32 32 =
        pure ⟨1, 1, 1, [0x04030201]⟩ ∧
      getPlaintextSize 32 = none ∧
      Query.create ⟨1, 1, 32, 1, ⟨1, 1, 1, [3]⟩, ⟨1, 1, 1, [9]⟩⟩ 0 = none ∧
      Query.parseResponse ⟨[3], [9]⟩ ⟨1, 1, 32, 1, ⟨0, 1, 0, []⟩, ⟨0, 1, 0, []⟩⟩ ⟨[9]⟩ =
        none :=
  ⟨rfl, by decide, by decide, by decide⟩

end Widths

end PracticalCrypto.Frodo
