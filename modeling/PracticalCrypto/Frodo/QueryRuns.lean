import PracticalCrypto.Frodo.Operations

/-!
# Runs of `Query::create`

`ClientParams::new` prepares one row of `B` and one of `C` for every query. This file
looks at the calls of `Query::create` that follow: at a single call on any parameters,
with what it returns and what it leaves behind, and at whole sequences of calls.

Both rows are popped before the checks, so a call that fails on its row index or on an
overflow has consumed them. A sequence of calls therefore uses the rows from the last one
down, one per call, whatever the calls return.
-/

namespace PracticalCrypto.Frodo

section Factor

theorem getRoundingFactor_mod (plaintextBits : ℕ) :
    getRoundingFactor plaintextBits = getRoundingFactor (plaintextBits % 2 ^ 32) := by
  simp [getRoundingFactor, getPlaintextSize]

/-- `get_rounding_factor` panics exactly if the power overflows. -/
theorem getRoundingFactor_cases (plaintextBits : ℕ) :
    getRoundingFactor plaintextBits =
      if plaintextBits % 2 ^ 32 < 32 then
        some (UInt32.ofNat (2 ^ 32 / 2 ^ (plaintextBits % 2 ^ 32)))
      else none := by
  rw [getRoundingFactor_mod]
  by_cases small : plaintextBits % 2 ^ 32 < 32
  · rw [if_pos small, getRoundingFactor_eq (by omega)]
  · rw [if_neg small]
    simp only [getRoundingFactor, getPlaintextSize, Nat.mod_mod, if_neg small]
    rfl

end Factor

section SingleCall

variable {cp : ClientParams}

/--
On well-formed parameters `Query::create` returns a query exactly if a row is left, the
index is a column, and the addition does not overflow.
-/
theorem create_ok_iff (cp : ClientParams) (bWellFormed : cp.B.WellFormed)
    (cWellFormed : cp.C.WellFormed) (bitsPos : 1 ≤ cp.plaintextBits)
    (bitsLe : cp.plaintextBits ≤ 31) (rowIndex : ℕ) :
    ∃ result after, Query.create cp rowIndex = some (result, after) ∧
      ((∃ query, result = .ok query) ↔
        cp.B.rows ≠ 0 ∧ cp.C.rows ≠ 0 ∧ rowIndex < cp.B.cols ∧
          (cp.B.entry (cp.B.rows - 1) rowIndex).toNat + 2 ^ 32 / 2 ^ cp.plaintextBits < 2 ^ 32) ∧
      ∀ query, result = .ok query →
        query.b.length = cp.B.cols ∧
          ∀ j < cp.B.cols, query.b.getD j 0 =
            if j = rowIndex then
              cp.B.entry (cp.B.rows - 1) j + UInt32.ofNat (2 ^ 32 / 2 ^ cp.plaintextBits)
            else cp.B.entry (cp.B.rows - 1) j := by
  by_cases noRow : cp.B.rows = 0 ∨ cp.C.rows = 0
  · refine ⟨_, _, Query.create_without_rows bWellFormed cWellFormed noRow rowIndex, ?_, ?_⟩
    · constructor
      · rintro ⟨query, isOk⟩
        cases isOk
      · rintro ⟨bRow, cRow, -⟩
        exact absurd noRow (not_or.mpr ⟨bRow, cRow⟩)
    · rintro query isOk
      cases isOk
  · obtain ⟨bRows, bRowsEq⟩ := Nat.exists_eq_succ_of_ne_zero (not_or.mp noRow).1
    obtain ⟨cRows, cRowsEq⟩ := Nat.exists_eq_succ_of_ne_zero (not_or.mp noRow).2
    have consumed := Query.create_eq bWellFormed cWellFormed bRowsEq cRowsEq
      (getRoundingFactor_eq bitsLe) rowIndex
    rw [toNat_roundingFactor bitsPos] at consumed
    have lastRow : cp.B.rows - 1 = bRows := by omega
    have rowLength : (cp.B.rowAt bRows).length = cp.B.cols :=
      bWellFormed.length_rowAt (by omega)
    rw [lastRow]
    refine ⟨_, _, consumed, ?_, ?_⟩
    · have bothRows : cp.B.rows ≠ 0 ∧ cp.C.rows ≠ 0 := not_or.mp noRow
      split
      case isTrue fits => exact ⟨fun _ => ⟨bothRows.1, bothRows.2, fits⟩, fun _ => ⟨_, rfl⟩⟩
      case isFalse fails =>
        simp only [reduceCtorEq, exists_false, false_iff]
        rintro ⟨-, -, fits⟩
        exact fails fits
    · intro query isOk
      split at isOk
      case isFalse => cases isOk
      case isTrue fits =>
        cases isOk
        constructor
        · simpa using rowLength
        · intro j inCols
          by_cases same : rowIndex = j
          · subst same
            simp [List.getD_eq_getElem?_getD, rowLength, inCols]
          · have unchanged : (cp.B.rowAt bRows).getD j 0 = cp.B.entry bRows j :=
              FlatMatrix.getD_rowAt inCols
            rw [List.getD_eq_getElem?_getD] at unchanged
            simp [List.getD_eq_getElem?_getD, same, Ne.symm same, unchanged]

theorem create_ok_iff_last_row :
    ∃ query after,
      Query.create ⟨1, 2, 8, 1, ⟨1, 2, 2, [5, 7]⟩, ⟨1, 1, 1, [9]⟩⟩ 1 = some (.ok query, after) ∧
        query.b.length = 2 := by
  rcases create_ok_iff ⟨1, 2, 8, 1, ⟨1, 2, 2, [5, 7]⟩, ⟨1, 1, 1, [9]⟩⟩ ⟨rfl, rfl⟩ ⟨rfl, rfl⟩
    (by decide) (by decide) 1 with ⟨result, after, created, succeeds, values⟩
  rcases succeeds.mpr (by decide) with ⟨query, rfl⟩
  exact ⟨query, after, created, (values query rfl).1⟩

/-- The entry of the mask and the factor exceed `u32::MAX`, although a row and the column exist. -/
theorem create_overflow :
    Query.create ⟨1, 1, 8, 1, ⟨1, 1, 1, [4294967295]⟩, ⟨1, 1, 1, [9]⟩⟩ 0 =
      some (.error .errorOverflownAdd, ⟨1, 1, 8, 1, ⟨0, 1, 0, []⟩, ⟨0, 1, 0, []⟩⟩) := by
  decide

namespace FlatMatrix

/-- There is a row to pop, but not all of its elements, or `n` does not count them. -/
def Lacks (self : FlatMatrix) : Prop :=
  self.rows ≠ 0 ∧ (self.elements.length < self.rows * self.cols ∨ self.n < self.cols)

variable {self : FlatMatrix}

theorem popRow_eq_none_iff : self.popRow = none ↔ self.Lacks := by
  by_cases noRow : self.rows = 0
  · simp [popRow, Lacks, noRow]
  · by_cases short : self.elements.length < self.rows * self.cols ∨ self.n < self.cols
    · simp [popRow, Lacks, noRow, short]
    · simp [popRow, Lacks, noRow, short]

/-- A row that is popped is the last one, and one row fewer is left. -/
theorem popRow_eq_some {popped : Option (List UInt32)} {rest : FlatMatrix}
    (taken : self.popRow = some (popped, rest)) :
    (self.rows = 0 ∧ popped = none ∧ rest = self) ∨
      (self.rows ≠ 0 ∧ rest.rows ≠ self.rows ∧ ∃ row, popped = some row ∧
        row.length = self.cols ∧
        ∀ j < self.cols, row.getD j 0 = self.entry (self.rows - 1) j) := by
  by_cases noRow : self.rows = 0
  · simp only [popRow, noRow, if_true, Option.some.injEq, Prod.mk.injEq] at taken
    exact .inl ⟨noRow, taken.1.symm, taken.2.symm⟩
  · obtain ⟨kept, rowsEq⟩ := Nat.exists_eq_succ_of_ne_zero noRow
    have split : (kept + 1) * self.cols = kept * self.cols + self.cols := Nat.succ_mul _ _
    simp only [popRow, rowsEq, Nat.succ_eq_add_one, Nat.add_one_ne_zero, if_false,
      Nat.add_sub_cancel] at taken
    split at taken
    case isTrue => cases taken
    case isFalse enough =>
      cases taken
      refine .inr ⟨noRow, ?_, _, rfl, ?_, ?_⟩
      · rw [rowsEq]
        exact Nat.ne_of_lt (Nat.lt_succ_self kept)
      · simp only [List.length_drop, List.length_take]
        omega
      · intro j inCols
        have inside : kept * self.cols + j < (kept + 1) * self.cols := by omega
        simp [entry, rowsEq, List.getD_eq_getElem?_getD, inside]

theorem popRow_unchanged_iff {popped : Option (List UInt32)} {rest : FlatMatrix}
    (taken : self.popRow = some (popped, rest)) : rest = self ↔ self.rows = 0 := by
  rcases popRow_eq_some taken with ⟨noRow, -, same⟩ | ⟨hasRow, fewer, -⟩
  · simp [noRow, same]
  · simp only [hasRow, iff_false]
    rintro rfl
    exact fewer rfl

end FlatMatrix

/-- What `Query::create` makes of the two popped rows. -/
def Query.ofRows (b c : Option (List UInt32)) (queryIndicator : UInt32) (rowIndex : ℕ) :
    Except QueryError Query :=
  match b, c with
  | some bRow, some cRow =>
      if rowIndex < bRow.length ∧ (bRow.getD rowIndex 0).toNat + queryIndicator.toNat < 2 ^ 32 then
        .ok ⟨bRow.set rowIndex (bRow.getD rowIndex 0 + queryIndicator), cRow⟩
      else .error .errorOverflownAdd
  | _, _ => .error .errorOverflownAdd

variable {b c : Option (List UInt32)} {B C : FlatMatrix} {factor : UInt32} {rowIndex : ℕ}

theorem create_of_popRow (notEmpty : ¬(cp.B.isEmpty ∨ cp.C.isEmpty))
    (bPopped : cp.B.popRow = some (b, B)) (cPopped : cp.C.popRow = some (c, C))
    (rounding : getRoundingFactor cp.plaintextBits = some factor) :
    Query.create cp rowIndex =
      some (Query.ofRows b c factor rowIndex, { cp with B := B, C := C }) := by
  have onward : ¬(cp.B.isEmpty || cp.C.isEmpty) = true := by simpa using notEmpty
  rw [Query.create, if_neg onward]
  simp only [bPopped, cPopped, rounding, Option.bind_eq_bind, Option.bind_some]
  cases b with
  | none => rfl
  | some bRow =>
      by_cases inRow : rowIndex < bRow.length
      · by_cases fits : (bRow.getD rowIndex 0).toNat + factor.toNat < 2 ^ 32
        · cases c with
          | none => simp only [Query.ofRows, if_pos inRow, if_pos fits]
          | some cRow =>
              simp only [Query.ofRows, if_pos inRow, if_pos fits, if_pos (And.intro inRow fits)]
        · cases c with
          | none => simp only [Query.ofRows, if_pos inRow, if_neg fits]
          | some cRow =>
              simp only [Query.ofRows, if_pos inRow, if_neg fits,
                if_neg fun both : _ ∧ _ => fits both.2]
      · cases c with
        | none => simp only [Query.ofRows, if_neg inRow]
        | some cRow =>
            simp only [Query.ofRows, if_neg inRow, if_neg fun both : _ ∧ _ => inRow both.1]

theorem create_eq_none (notEmpty : ¬(cp.B.isEmpty ∨ cp.C.isEmpty))
    (fails : cp.B.Lacks ∨ cp.C.Lacks ∨ 32 ≤ cp.plaintextBits % 2 ^ 32) :
    Query.create cp rowIndex = none := by
  have onward : ¬(cp.B.isEmpty || cp.C.isEmpty) = true := by simpa using notEmpty
  rw [Query.create, if_neg onward]
  rcases fails with bLacks | cLacks | overflows
  · simp [FlatMatrix.popRow_eq_none_iff.mpr bLacks]
  · simp [FlatMatrix.popRow_eq_none_iff.mpr cLacks]
  · have noFactor : getRoundingFactor cp.plaintextBits = none := by
      rw [getRoundingFactor_cases, if_neg (Nat.not_lt.mpr overflows)]
    simp [noFactor]

/-- The two popped rows give a query. -/
def Query.Succeeds (cp : ClientParams) (factor : UInt32) (rowIndex : ℕ) : Prop :=
  cp.B.rows ≠ 0 ∧ cp.C.rows ≠ 0 ∧ rowIndex < cp.B.cols ∧
    (cp.B.entry (cp.B.rows - 1) rowIndex).toNat + factor.toNat < 2 ^ 32

theorem ofRows_isOk_iff (bPopped : cp.B.popRow = some (b, B))
    (cPopped : cp.C.popRow = some (c, C)) :
    (∃ query, Query.ofRows b c factor rowIndex = .ok query) ↔
      Query.Succeeds cp factor rowIndex := by
  rcases FlatMatrix.popRow_eq_some bPopped with
    ⟨noB, rfl, -⟩ | ⟨hasB, -, bRow, rfl, bLength, bValues⟩
  · simp [Query.ofRows, Query.Succeeds, noB]
  · rcases FlatMatrix.popRow_eq_some cPopped with ⟨noC, rfl, -⟩ | ⟨hasC, -, cRow, rfl, -, -⟩
    · simp [Query.ofRows, Query.Succeeds, noC]
    · by_cases inRow : rowIndex < cp.B.cols
      · by_cases fits : (bRow.getD rowIndex 0).toNat + factor.toNat < 2 ^ 32
        · simp only [Query.ofRows, bLength, inRow, fits, Query.Succeeds, ← bValues rowIndex inRow]
          simp [hasB, hasC]
        · simp only [Query.ofRows, bLength, inRow, fits, Query.Succeeds, ← bValues rowIndex inRow]
          simp
      · simp [Query.ofRows, bLength, inRow, Query.Succeeds]

/--
A call that returns an error leaves `B` and `C` as they were exactly if it is refused at
once, if there is no row to pop, if it panics, or if it does not fail.
-/
theorem create_error_unchanged_iff (cp : ClientParams) (rowIndex : ℕ) :
    (∀ error after, Query.create cp rowIndex = some (.error error, after) →
      after.B = cp.B ∧ after.C = cp.C) ↔
    (cp.B.isEmpty ∨ cp.C.isEmpty) ∨
      (cp.B.Lacks ∨ cp.C.Lacks ∨ 32 ≤ cp.plaintextBits % 2 ^ 32) ∨
      (cp.B.rows = 0 ∧ cp.C.rows = 0) ∨
      Query.Succeeds cp (UInt32.ofNat (2 ^ 32 / 2 ^ (cp.plaintextBits % 2 ^ 32))) rowIndex := by
  by_cases empty : cp.B.isEmpty ∨ cp.C.isEmpty
  · have refused : Query.create cp rowIndex = some (.error .errorQueryParamsReused, cp) := by
      have atOnce : (cp.B.isEmpty || cp.C.isEmpty) = true := by simpa using empty
      rw [Query.create, if_pos atOnce]
    simp [refused, empty]
  by_cases fails : cp.B.Lacks ∨ cp.C.Lacks ∨ 32 ≤ cp.plaintextBits % 2 ^ 32
  · apply iff_of_true
    · simp [create_eq_none empty fails]
    · exact .inr (.inl fails)
  rcases not_or.mp fails with ⟨bEnough, others⟩
  rcases not_or.mp others with ⟨cEnough, small⟩
  rcases Option.ne_none_iff_exists'.mp (mt FlatMatrix.popRow_eq_none_iff.mp bEnough) with
    ⟨⟨b, B⟩, bPopped⟩
  rcases Option.ne_none_iff_exists'.mp (mt FlatMatrix.popRow_eq_none_iff.mp cEnough) with
    ⟨⟨c, C⟩, cPopped⟩
  have rounding := getRoundingFactor_cases cp.plaintextBits
  rw [if_pos (Nat.not_le.mp small)] at rounding
  have created := @create_of_popRow cp b c B C _ rowIndex empty bPopped cPopped rounding
  have unchanged : (B = cp.B ∧ C = cp.C) ↔ (cp.B.rows = 0 ∧ cp.C.rows = 0) :=
    and_congr (FlatMatrix.popRow_unchanged_iff bPopped) (FlatMatrix.popRow_unchanged_iff cPopped)
  have succeeds := @ofRows_isOk_iff cp b c B C
    (UInt32.ofNat (2 ^ 32 / 2 ^ (cp.plaintextBits % 2 ^ 32))) rowIndex bPopped cPopped
  rw [created, ← succeeds, ← unchanged]
  simp only [empty, fails, false_or]
  cases Query.ofRows b c (UInt32.ofNat (2 ^ 32 / 2 ^ (cp.plaintextBits % 2 ^ 32))) rowIndex with
  | ok query => simp
  | error error => simp

/-- A row index past the columns is an error, and the only row is gone. -/
theorem create_index_costs_a_row :
    Query.create ⟨1, 1, 8, 1, ⟨1, 1, 1, [3]⟩, ⟨1, 1, 1, [9]⟩⟩ 1 =
      some (.error .errorOverflownAdd, ⟨1, 1, 8, 1, ⟨0, 1, 0, []⟩, ⟨0, 1, 0, []⟩⟩) := by
  decide

end SingleCall

section Runs

/-- A call of `Query::create`, with the parameters before and after it. -/
structure Call where
  before : ClientParams
  rowIndex : ℕ
  result : Except QueryError Query
  after : ClientParams

/-- The calls of `Query::create` for the listed rows; one that panics ends the run. -/
def Query.calls (cp : ClientParams) : List ℕ → Option (List Call)
  | [] => some []
  | rowIndex :: later => do
      let (result, consumed) ← create cp rowIndex
      let rest ← calls consumed later
      some (⟨cp, rowIndex, result, consumed⟩ :: rest)

namespace Call

/-- The call takes row `index` of the original `B` and `C` away: the rows before it are left. -/
def Consumes (fresh : ClientParams) (index : ℕ) (call : Call) : Prop :=
  call.before = fresh.remaining (index + 1) ∧ call.after = fresh.remaining index

/-- The query is row `index` of `B`, with the factor added at the called row, and of `C`. -/
def BuiltFrom (fresh : ClientParams) (index : ℕ) (call : Call) (query : Query) : Prop :=
  query.c = fresh.C.rowAt index ∧
    ∃ factor, getRoundingFactor fresh.plaintextBits = some factor ∧
      query.b = (fresh.B.rowAt index).set call.rowIndex
        (fresh.B.entry index call.rowIndex + factor)

/-- What a call does that finds the given number of rows left. -/
def Expected (fresh : ClientParams) (call : Call) : ℕ → Prop
  | 0 => call.before = fresh.remaining 0 ∧ call.after = fresh.remaining 0 ∧
      call.result = .error .errorQueryParamsReused
  | index + 1 => call.Consumes fresh index ∧
      ∀ query, call.result = .ok query → call.BuiltFrom fresh index query

variable {fresh : ClientParams} {call : Call} {rows index : ℕ}

theorem Expected.same_rows (expected : call.Expected fresh rows) :
    call.before.B.rows = call.before.C.rows ∧ call.after.B.rows = call.after.C.rows := by
  cases rows with
  | zero =>
      rcases expected with ⟨before, after, -⟩
      rw [before, after]
      exact ⟨rfl, rfl⟩
  | succ index =>
      rcases expected with ⟨⟨before, after⟩, -⟩
      rw [before, after]
      exact ⟨rfl, rfl⟩

theorem Expected.before_rows (expected : call.Expected fresh rows) :
    call.before.B.rows = rows := by
  cases rows with
  | zero => exact congrArg (fun params => params.B.rows) expected.1
  | succ index => exact congrArg (fun params => params.B.rows) expected.1.1

theorem Consumes.before_rows (consumes : call.Consumes fresh index) :
    call.before.B.rows = index + 1 :=
  congrArg (fun params => params.B.rows) consumes.1

end Call

variable {params : ClientParams} {queries m w kept : ℕ}

theorem create_expected (bShape : params.B.HasShape queries m)
    (cShape : params.C.HasShape queries w) (keptLe : kept ≤ queries) {rowIndex : ℕ}
    {result : Except QueryError Query} {after : ClientParams}
    (created : Query.create (params.remaining kept) rowIndex = some (result, after)) :
    Call.Expected params ⟨params.remaining kept, rowIndex, result, after⟩ kept ∧
      after = params.remaining (kept - 1) := by
  cases kept with
  | zero =>
      rw [Query.create_remaining_zero bShape cShape] at created
      cases created
      exact ⟨⟨rfl, rfl, rfl⟩, rfl⟩
  | succ index =>
      cases rounding : getRoundingFactor params.plaintextBits with
      | none =>
          have overflows : 32 ≤ params.plaintextBits % 2 ^ 32 := by
            by_contra small
            rw [getRoundingFactor_cases, if_pos (Nat.not_le.mp small)] at rounding
            cases rounding
          have notEmpty : ¬((params.remaining (index + 1)).B.isEmpty ∨
              (params.remaining (index + 1)).C.isEmpty) := by
            simp [ClientParams.remaining, FlatMatrix.takeRows, FlatMatrix.isEmpty]
          rw [create_eq_none notEmpty (.inr (.inr overflows))] at created
          cases created
      | some factor =>
          rw [Query.create_remaining_of_rounding bShape cShape rounding keptLe] at created
          cases created
          refine ⟨⟨⟨rfl, rfl⟩, ?_⟩, rfl⟩
          intro query isOk
          dsimp only at isOk
          split at isOk
          · cases isOk
            exact ⟨rfl, factor, rounding, rfl⟩
          · cases isOk

theorem calls_expected (bShape : params.B.HasShape queries m)
    (cShape : params.C.HasShape queries w) {rowIndices : List ℕ} (keptLe : kept ≤ queries)
    {made : List Call} (run : Query.calls (params.remaining kept) rowIndices = some made)
    {t : ℕ} {call : Call} (isCall : made[t]? = some call) :
    call.Expected params (kept - t) := by
  induction rowIndices generalizing kept made t with
  | nil =>
      cases run
      simp at isCall
  | cons rowIndex later ih =>
      rcases Option.bind_eq_some_iff.mp run with ⟨⟨result, after⟩, created, rest⟩
      rcases Option.bind_eq_some_iff.mp rest with ⟨others, laterRun, whole⟩
      cases whole
      rcases create_expected bShape cShape keptLe created with ⟨expected, rfl⟩
      cases t with
      | zero =>
          cases isCall
          exact expected
      | succ t =>
          have fewer : kept - (t + 1) = kept - 1 - t := by omega
          rw [fewer]
          exact ih (by omega) laterRun isCall

/-- `ClientParams::new` prepares one row of both matrices for every query. -/
theorem new_hasShape {nextU32 : Seed → ℕ → UInt32} {secrets errors : ℕ → List UInt32}
    {dim plaintextBits dbW : ℕ} {publicSeed : Seed} {H : FlatMatrix}
    (built : ClientParams.new nextU32 secrets errors m dim plaintextBits dbW publicSeed H queries =
      some (.ok params)) :
    params.B.HasShape queries m ∧ params.C.HasShape queries H.cols ∧
      params.plaintextBits = plaintextBits := by
  rw [ClientParams.new] at built
  split at built
  · cases built
  rcases Option.bind_eq_some_iff.mp built with ⟨A, generated, wrapping⟩
  rcases Option.bind_eq_some_iff.mp wrapping with ⟨S, sWrapped, wrapping⟩
  rcases Option.bind_eq_some_iff.mp wrapping with ⟨E, -, preparing⟩
  rcases Option.bind_eq_some_iff.mp preparing with ⟨prepared, computed, isParams⟩
  cases isParams
  rcases Option.bind_eq_some_iff.mp computed with ⟨product, multiplied, adding⟩
  rcases Option.bind_eq_some_iff.mp adding with ⟨B, added, masking⟩
  rcases Option.bind_eq_some_iff.mp masking with ⟨C, masked, isPrepared⟩
  cases isPrepared
  have sRows : S.rows = queries := by
    rcases FlatMatrix.withVector_eq_some.mp sWrapped with ⟨-, -, rfl⟩
    rfl
  have aCols : A.cols = m := by
    rw [FlatMatrix.newFromSeed] at generated
    split at generated
    · cases generated
    · rcases FlatMatrix.withVector_eq_some.mp generated with ⟨-, -, rfl⟩
      rfl
  have productShape := FlatMatrix.multTranspose_hasShape multiplied
  have cShape := FlatMatrix.multTranspose_hasShape masked
  rw [sRows, aCols] at productShape
  rw [sRows] at cShape
  exact ⟨FlatMatrix.add_hasShape productShape added, cShape, rfl⟩

theorem calls_return (bShape : params.B.HasShape queries m) (cShape : params.C.HasShape queries w)
    (bitsLe : params.plaintextBits ≤ 31) (rowIndices : List ℕ) (keptLe : kept ≤ queries) :
    ∃ made, Query.calls (params.remaining kept) rowIndices = some made := by
  induction rowIndices generalizing kept with
  | nil => exact ⟨[], rfl⟩
  | cons rowIndex later ih =>
      cases kept with
      | zero =>
          rcases ih keptLe with ⟨made, run⟩
          simp [Query.calls, Query.create_remaining_zero bShape cShape, run]
      | succ index =>
          rcases ih (Nat.le_of_succ_le keptLe) with ⟨made, run⟩
          simp [Query.calls, Query.create_remaining_of_rounding bShape cShape
            (getRoundingFactor_eq bitsLe) keptLe, run]

/-- At most as many calls succeed as there were rows: the later ones are refused. -/
theorem countP_isOk_le {made : List Call} {limit : ℕ}
    (refused : ∀ t call, limit ≤ t → made[t]? = some call →
      call.result = .error .errorQueryParamsReused) :
    made.countP (fun call => call.result.isOk) ≤ limit := by
  have none : (made.drop limit).countP (fun call => call.result.isOk) = 0 := by
    apply List.countP_eq_zero.mpr
    intro call member
    rcases List.mem_iff_getElem?.mp member with ⟨t, isCall⟩
    rw [List.getElem?_drop] at isCall
    rw [refused _ call (Nat.le_add_right _ _) isCall]
    simp [Except.isOk, Except.toBool]
  calc made.countP (fun call => call.result.isOk)
      = (made.take limit ++ made.drop limit).countP (fun call => call.result.isOk) := by
        rw [List.take_append_drop]
    _ = (made.take limit).countP (fun call => call.result.isOk) := by
        rw [List.countP_append, none, Nat.add_zero]
    _ ≤ (made.take limit).length := List.countP_le_length
    _ ≤ limit := List.length_take_le _ _

/--
After `ClientParams::new` for `queries` queries, the calls of `Query::create` use up the
prepared rows one by one, and none of them twice.
-/
theorem queryParams_never_reused (nextU32 : Seed → ℕ → UInt32) (secrets errors : ℕ → List UInt32)
    (m dim plaintextBits dbW : ℕ) (publicSeed : Seed) (H : FlatMatrix) (queries : ℕ)
    (params : ClientParams)
    (built : ClientParams.new nextU32 secrets errors m dim plaintextBits dbW publicSeed H queries =
      some (.ok params)) (rowIndices : List ℕ) :
    (plaintextBits ≤ 31 → ∃ made, Query.calls params rowIndices = some made) ∧
    ∀ made, Query.calls params rowIndices = some made →
      (∀ call ∈ made, call.before.B.rows = call.before.C.rows ∧
        call.after.B.rows = call.after.C.rows) ∧
      (∀ t call, made[t]? = some call →
        (t < queries → ∃ index < queries, call.Consumes params index) ∧
        ∀ query, call.result = .ok query →
          ∃ index < queries, call.Consumes params index ∧ call.BuiltFrom params index query) ∧
      (∀ (t t' : ℕ) (call call' : Call) (index : ℕ), made[t]? = some call → made[t']? = some call' →
        call.Consumes params index → call'.Consumes params index → t = t') ∧
      made.countP (fun call => call.result.isOk) ≤ queries ∧
      ∀ t call, queries ≤ t → made[t]? = some call →
        call.result = .error .errorQueryParamsReused := by
  rcases new_hasShape built with ⟨bShape, cShape, sameBits⟩
  have allRows : params.remaining queries = params := by
    rw [ClientParams.remaining, FlatMatrix.takeRows_all bShape, FlatMatrix.takeRows_all cShape]
  constructor
  · intro bitsLe
    have returns := calls_return bShape cShape (sameBits ▸ bitsLe) rowIndices le_rfl
    rwa [allRows] at returns
  · intro made run
    rw [← allRows] at run
    have expected : ∀ (t : ℕ) (call : Call), made[t]? = some call →
        call.Expected params (queries - t) :=
      fun t call isCall => calls_expected bShape cShape le_rfl run isCall
    have refused : ∀ (t : ℕ) (call : Call), queries ≤ t → made[t]? = some call →
        call.result = .error .errorQueryParamsReused := by
      intro t call past isCall
      have noRow := expected t call isCall
      rw [Nat.sub_eq_zero_of_le past] at noRow
      exact noRow.2.2
    refine ⟨?_, ?_, ?_, countP_isOk_le refused, refused⟩
    · intro call member
      rcases List.mem_iff_getElem?.mp member with ⟨t, isCall⟩
      exact (expected t call isCall).same_rows
    · intro t call isCall
      have consumes := expected t call isCall
      by_cases within : t < queries
      · obtain ⟨index, rowsEq⟩ := Nat.exists_eq_succ_of_ne_zero (Nat.sub_ne_zero_of_lt within)
        rw [rowsEq] at consumes
        have inRows : index < queries := by omega
        constructor
        · intro _
          exact ⟨index, inRows, consumes.1⟩
        · intro query isOk
          exact ⟨index, inRows, consumes.1, consumes.2 query isOk⟩
      · constructor
        · intro inRun
          exact absurd inRun within
        · intro query isOk
          rw [refused t call (Nat.not_lt.mp within) isCall] at isOk
          cases isOk
    · intro t t' call call' index isCall isCall' consumes consumes'
      -- both calls found `index + 1` rows, and every call finds one row fewer
      have rows := (expected t call isCall).before_rows
      have rows' := (expected t' call' isCall').before_rows
      rw [consumes.before_rows] at rows
      rw [consumes'.before_rows] at rows'
      omega

theorem queryParams_never_reused_three_calls :
    ∃ params, ClientParams.new (fun _ _ => 3) (fun _ => [1, 1]) (fun _ => [1, 1]) 1 2 8 1 []
        ⟨2, 1, 2, [5, 6]⟩ 2 = some (.ok params) ∧
      ∃ made, Query.calls params [0, 7, 0] = some made ∧
        made.countP (fun call => call.result.isOk) ≤ 2 := by
  refine ⟨⟨2, 1, 8, 1, ⟨2, 1, 2, [0, 0]⟩, ⟨2, 1, 2, [0, 0]⟩⟩, rfl, ?_⟩
  have runs := queryParams_never_reused (fun _ _ => 3) (fun _ => [1, 1]) (fun _ => [1, 1]) 1 2 8 1
    [] ⟨2, 1, 2, [5, 6]⟩ 2 ⟨2, 1, 8, 1, ⟨2, 1, 2, [0, 0]⟩, ⟨2, 1, 2, [0, 0]⟩⟩ rfl [0, 7, 0]
  rcases runs.1 (by decide) with ⟨made, run⟩
  exact ⟨made, run, (runs.2 made run).2.2.2.1⟩

end Runs

end PracticalCrypto.Frodo
