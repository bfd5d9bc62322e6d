import PracticalCrypto.Frodo.Consumption
import Mathlib.Data.BitVec
import Mathlib.Tactic.Abel

/-!
# FrodoPIR retrieval

The client recovers the row it asked for. The argument has three parts.

* Consumption: every `Query::create` call that does not fail the emptiness test
  removes the last row of `B` and of `C`, so after any earlier calls the two
  matrices are the same initial rows of the original ones.
* Algebra: over `UInt32` the response minus the unmasking row is the scaled
  database row plus the error row times the database, because the three
  multiplication kernels are all the matrix product.
* Rounding: a value within half a step of a multiple of the step decodes to
  that multiple, also when negative noise wraps around below zero.
-/

namespace PracticalCrypto.Frodo

def signed (value : UInt32) : ℤ := value.toBitVec.toInt

/-- The integer noise that row `k` of `E` adds to column `j` of the database. -/
def noise (E db : FlatMatrix) (k j : ℕ) : ℤ :=
  ∑ l ∈ Finset.range db.rows, signed (E.entry k l) * ((db.entry l j).toNat : ℤ)

section Rounding

variable {step size : ℕ}

theorem round_quotient {quotient gap : ℕ} (gapLt : gap < step) :
    (step * quotient + gap) / step +
        (if step / 2 < (step * quotient + gap) % step then 1 else 0) =
      quotient + if step / 2 < gap then 1 else 0 := by
  have stepPos : 0 < step := by omega
  rw [Nat.mul_add_div stepPos, Nat.div_eq_of_lt gapLt, Nat.mul_add_mod, Nat.mod_eq_of_lt gapLt]
  simp

/-- Values in the half-open window around `step * value` decode to `value`. -/
theorem round_recovers {value unscaled : ℕ} {error : ℤ} (whole : step * size = 2 ^ 32)
    (stepEven : 2 ∣ step) (valueLt : value < size) (lower : -(step : ℤ) < 2 * error)
    (upper : 2 * error ≤ step)
    (unscaledEq : (unscaled : ℤ) = ((step * value : ℕ) + error) % 2 ^ 32) :
    (unscaled / step + if step / 2 < unscaled % step then 1 else 0) % size = value := by
  have belowTop : step * value + step ≤ 2 ^ 32 := by
    calc
      step * value + step = step * (value + 1) := by ring
      _ ≤ step * size := Nat.mul_le_mul_left step valueLt
      _ = 2 ^ 32 := whole
  rcases Int.lt_or_le error 0 with negative | nonnegative
  · rcases Int.eq_ofNat_of_zero_le (by omega : 0 ≤ (step : ℤ) + error) with ⟨gap, gapEq⟩
    have gapLt : gap < step := by omega
    have gapHigh : step / 2 < gap := by omega
    rcases Nat.eq_zero_or_pos value with valueZero | valuePos
    · -- noise below a zero entry wraps to the top of the modulus
      have topStep : step * (size - 1) + step = 2 ^ 32 := by
        rw [← whole, ← Nat.mul_succ]
        congr 1
        omega
      have wrapped : unscaled = step * (size - 1) + gap := by
        simp only [valueZero, mul_zero, Nat.cast_zero, zero_add] at unscaledEq
        omega
      rw [wrapped, round_quotient gapLt, if_pos gapHigh, valueZero]
      have : size - 1 + 1 = size := by omega
      rw [this, Nat.mod_self]
    · have stepDown : step * (value - 1) + step = step * value := by
        rw [← Nat.mul_succ]
        congr 1
        omega
      have below : unscaled = step * (value - 1) + gap := by
        rw [Int.emod_eq_of_lt (by omega) (by omega)] at unscaledEq
        omega
      rw [below, round_quotient gapLt, if_pos gapHigh]
      have : value - 1 + 1 = value := by omega
      rw [this, Nat.mod_eq_of_lt valueLt]
  · rcases Int.eq_ofNat_of_zero_le nonnegative with ⟨gap, rfl⟩
    have gapLt : gap < step := by omega
    have gapLow : ¬step / 2 < gap := by omega
    have above : unscaled = step * value + gap := by
      rw [Int.emod_eq_of_lt (by omega) (by omega)] at unscaledEq
      omega
    rw [above, round_quotient gapLt, if_neg gapLow, Nat.add_zero, Nat.mod_eq_of_lt valueLt]

end Rounding

section Parameters

variable {p : ℕ}

theorem step_mul_size (small : p ≤ 31) : 2 ^ 32 / 2 ^ p * 2 ^ p = 2 ^ 32 :=
  Nat.div_mul_cancel (Nat.pow_dvd_pow 2 (by omega))

theorem two_dvd_step (small : p ≤ 31) : 2 ∣ 2 ^ 32 / 2 ^ p := by
  rw [Nat.pow_div (by omega) (by omega)]
  exact dvd_pow_self 2 (by omega)

theorem roundingFactor_ne_zero (positive : 1 ≤ p) (small : p ≤ 31) :
    UInt32.ofNat (2 ^ 32 / 2 ^ p) ≠ 0 := by
  apply ne_zero_of_toNat_pos
  rw [toNat_roundingFactor positive]
  exact Nat.div_pos (Nat.pow_le_pow_right (by omega) (by omega)) (Nat.two_pow_pos p)

/-- One column decodes to the database value when the noise stays in its window. -/
theorem parseColumn_recovers {value unscaledRes : UInt32} {error : ℤ} (positive : 1 ≤ p)
    (small : p ≤ 31) (valueLt : value.toNat < 2 ^ p)
    (lower : -((2 ^ 32 / 2 ^ p : ℕ) : ℤ) < 2 * error)
    (upper : 2 * error ≤ ((2 ^ 32 / 2 ^ p : ℕ) : ℤ))
    (unscaledEq : (unscaledRes.toNat : ℤ) =
      ((2 ^ 32 / 2 ^ p * value.toNat : ℕ) + error) % 2 ^ 32) :
    Query.parseColumn (UInt32.ofNat (2 ^ 32 / 2 ^ p)) (UInt32.ofNat (2 ^ 32 / 2 ^ p) / 2)
      (UInt32.ofNat (2 ^ p)) unscaledRes = some value := by
  have stepNat := toNat_roundingFactor positive
  have sizeNat := toNat_plaintextSize small
  have recovered := round_recovers (step_mul_size small) (two_dvd_step small) valueLt lower upper
    unscaledEq
  have guard : ¬(UInt32.ofNat (2 ^ 32 / 2 ^ p) = 0 ∨ UInt32.ofNat (2 ^ p) = 0) :=
    not_or.mpr ⟨roundingFactor_ne_zero positive small, plaintextSize_ne_zero small⟩
  have quotientLt : unscaledRes.toNat / (2 ^ 32 / 2 ^ p) < 2 ^ p := by
    apply Nat.div_lt_of_lt_mul
    rw [step_mul_size small]
    exact unscaledRes.toNat_lt
  have sizeLe : 2 ^ p ≤ 2 ^ 31 := Nat.pow_le_pow_right (by omega) small
  rw [Query.parseColumn, if_neg guard]
  simp only [UInt32.lt_iff_toNat_lt, UInt32.toNat_div, UInt32.toNat_mod, stepNat]
  by_cases roundUp : 2 ^ 32 / 2 ^ p / 2 < unscaledRes.toNat % (2 ^ 32 / 2 ^ p)
  · rw [if_pos roundUp] at recovered
    have noOverflow : unscaledRes.toNat / (2 ^ 32 / 2 ^ p) + 1 < 2 ^ 32 := by omega
    rw [if_pos (by simpa using roundUp), if_pos noOverflow]
    congr 1
    apply UInt32.toNat_inj.mp
    rw [UInt32.toNat_mod, UInt32.toNat_add, UInt32.toNat_div, stepNat, sizeNat]
    rw [UInt32.toNat_one, Nat.mod_eq_of_lt noOverflow]
    exact recovered
  · rw [if_neg roundUp] at recovered
    rw [if_neg (by simpa using roundUp)]
    congr 1
    apply UInt32.toNat_inj.mp
    rw [UInt32.toNat_mod, UInt32.toNat_div, stepNat, sizeNat]
    exact recovered

end Parameters

section Algebra

variable {R : Type*} [NonUnitalCommRing R] {queries dim m w : ℕ}

/-- Unmasking leaves the scaled database row plus the error row times the database. -/
theorem unmasked_eq (S : Matrix (Fin queries) (Fin dim) R) (A : Matrix (Fin dim) (Fin m) R)
    (E : Matrix (Fin queries) (Fin m) R) (db : Matrix (Fin m) (Fin w) R) (k : Fin queries)
    (i : Fin m) (j : Fin w) (indicator : R) :
    db.transpose.mulVec (Function.update ((S * A + E) k) i ((S * A + E) k i + indicator)) j -
        (S * (A * db)) k j =
      indicator * db i j + ∑ l, E k l * db l j := by
  have selected : Function.update ((S * A + E) k) i ((S * A + E) k i + indicator) =
      (S * A) k + E k + Pi.single i indicator := by
    funext l
    by_cases same : l = i
    · subst same
      simp [Matrix.add_apply]
    · simp [Function.update_of_ne same, Pi.single_eq_of_ne same, Matrix.add_apply]
  have errorPart : db.transpose.mulVec (E k) j = ∑ l, E k l * db l j := by
    simp only [Matrix.mulVec, dotProduct, Matrix.transpose_apply]
    exact Finset.sum_congr rfl fun l _ => mul_comm _ _
  have maskPart : db.transpose.mulVec ((S * A) k) j = (S * (A * db)) k j := by
    rw [← Matrix.mul_assoc, Matrix.mul_apply]
    simp only [Matrix.mulVec, dotProduct, Matrix.transpose_apply]
    exact Finset.sum_congr rfl fun l _ => mul_comm _ _
  have rowPart : db.transpose.mulVec (Pi.single i indicator) j = indicator * db i j := by
    simp only [Matrix.mulVec, dotProduct, Matrix.transpose_apply, Pi.single_apply, mul_ite,
      mul_zero, Finset.sum_ite_eq', Finset.mem_univ, if_true]
    exact mul_comm _ _
  rw [selected, Matrix.mulVec_add, Matrix.mulVec_add, Pi.add_apply, Pi.add_apply, errorPart,
    maskPart, rowPart]
  abel

end Algebra

section Integers

def toBitVecHom : UInt32 →+ BitVec 32 where
  toFun := UInt32.toBitVec
  map_zero' := rfl
  map_add' := fun _ _ => rfl

theorem intCast_signed (value : UInt32) : ((signed value : ℤ) : BitVec 32) = value.toBitVec :=
  BitVec.ofInt_toInt

theorem natCast_toNat (value : UInt32) : ((value.toNat : ℕ) : BitVec 32) = value.toBitVec := by
  change BitVec.ofNat 32 value.toBitVec.toNat = value.toBitVec
  rw [BitVec.ofNat_toNat, BitVec.setWidth_eq]

theorem toBitVec_sum_mul {length : ℕ} (left right : Fin length → UInt32) :
    (∑ l, left l * right l).toBitVec =
      ((∑ l, signed (left l) * ((right l).toNat : ℤ) : ℤ) : BitVec 32) := by
  have additive := map_sum toBitVecHom (fun l => left l * right l) Finset.univ
  refine additive.trans ?_
  rw [Int.cast_sum]
  apply Finset.sum_congr rfl
  intro l _
  rw [Int.cast_mul, intCast_signed, Int.cast_natCast, natCast_toNat]
  rfl

theorem toNat_eq_emod {value : UInt32} {integer : ℤ}
    (congruent : value.toBitVec = (integer : BitVec 32)) :
    (value.toNat : ℤ) = integer % 2 ^ 32 := by
  have asNat : value.toNat = (BitVec.ofInt 32 integer).toNat := congrArg BitVec.toNat congruent
  rw [asNat, BitVec.toNat_ofInt]
  have nonnegative : 0 ≤ integer % ((2 ^ 32 : ℕ) : ℤ) := Int.emod_nonneg _ (by decide)
  rw [Int.toNat_of_nonneg nonnegative]
  rfl

theorem noise_eq_sum {E db : FlatMatrix} {queries m w : ℕ} (eShape : E.Covers queries m)
    (dbShape : db.Covers m w) (k : Fin queries) (j : Fin w) :
    noise E db k j = ∑ l, signed (E.toMatrix queries m k l) *
      ((db.toMatrix m w l j).toNat : ℤ) := by
  rw [noise, dbShape.rows_eq, Finset.sum_range]
  apply Finset.sum_congr rfl
  intro l _
  rw [FlatMatrix.toMatrix_eq_entry eShape, FlatMatrix.toMatrix_eq_entry dbShape]

end Integers

section Retrieval

variable {p m w dim queries elemSize : ℕ} {seed : Seed} {A S E db : FlatMatrix}

theorem mapM_range_eq_ofFn {β : Type} {length : ℕ} {f : ℕ → Option β} {values : Fin length → β}
    (each : ∀ j : Fin length, f j = some (values j)) :
    (List.range length).mapM f = some (List.ofFn values) := by
  induction length with
  | zero => rfl
  | succ length ih =>
      have last : f length = some (values (Fin.last length)) := each (Fin.last length)
      have earlier := ih fun j => each j.castSucc
      rw [List.range_succ, List.mapM_append, earlier, List.ofFn_succ_last]
      simp [last]

theorem ofFn_set {β : Type} {length : ℕ} (values : Fin length → β) (i : Fin length) (value : β) :
    (List.ofFn values).set i value = List.ofFn (Function.update values i value) := by
  apply List.ext_getElem
  · simp
  · intro l lLt _
    have inside : l < length := by simpa using lLt
    rw [List.getElem_set, List.getElem_ofFn, List.getElem_ofFn, Function.update_apply]
    simp only [Fin.ext_iff, eq_comm]

theorem create_ok {params after : ClientParams} {query : Query} {kept i : ℕ}
    (fresh : params.Fresh queries m w) (keptLe : kept ≤ queries)
    (created : Query.create (params.remaining kept) i = some (.ok query, after)) :
    ∃ (k : Fin queries) (column : Fin m), kept = k + 1 ∧ i = column ∧
      after = params.remaining k ∧ query.c = List.ofFn (params.C.toMatrix queries w k) ∧
      query.b = List.ofFn (Function.update (params.B.toMatrix queries m k) column
        (params.B.toMatrix queries m k column +
          UInt32.ofNat (2 ^ 32 / 2 ^ params.plaintextBits))) := by
  rcases kept with _ | k
  · rw [Query.create_remaining_zero fresh.B_shape fresh.C_shape] at created
    cases created
  · rw [Query.create_remaining_succ fresh keptLe] at created
    split at created
    · rename_i accepted
      cases created
      refine ⟨⟨k, keptLe⟩, ⟨i, accepted.1⟩, rfl, rfl, rfl, ?_, ?_⟩
      · exact FlatMatrix.rowAt_eq_ofFn fresh.C_shape.toCovers ⟨k, keptLe⟩
      · rw [FlatMatrix.toMatrix_eq_entry fresh.B_shape.toCovers, ← ofFn_set]
        rw [← FlatMatrix.rowAt_eq_ofFn fresh.B_shape.toCovers]
    · cases created

theorem parseResponse_columns {query : Query} {params : ClientParams}
    {received unmask values : Fin w → UInt32} (small : params.plaintextBits ≤ 31)
    (widthEq : params.dbW = w) (unmaskEq : query.c = List.ofFn unmask)
    (decodes : ∀ j, Query.parseColumn (UInt32.ofNat (2 ^ 32 / 2 ^ params.plaintextBits))
      (UInt32.ofNat (2 ^ 32 / 2 ^ params.plaintextBits) / 2)
      (UInt32.ofNat (2 ^ params.plaintextBits)) (received j - unmask j) = some (values j)) :
    query.parseResponse params ⟨List.ofFn received⟩ = some (List.ofFn values) := by
  simp only [Query.parseResponse, getRoundingFloor, getRoundingFactor_eq small,
    getPlaintextSize_eq small, Option.bind_eq_bind, Option.bind_some, widthEq]
  apply mapM_range_eq_ofFn
  intro j
  simpa [unmaskEq] using decodes j

theorem unmasked_toNat (eCovers : E.Covers queries m) (dbCovers : db.Covers m w) (k : Fin queries)
    (i : Fin m) (j : Fin w) :
    ((UInt32.ofNat (2 ^ 32 / 2 ^ p) * db.toMatrix m w i j +
        ∑ l, E.toMatrix queries m k l * db.toMatrix m w l j).toNat : ℤ) =
      ((2 ^ 32 / 2 ^ p * (db.toMatrix m w i j).toNat : ℕ) + noise E db k j) % 2 ^ 32 := by
  apply toNat_eq_emod
  rw [UInt32.toBitVec_add, UInt32.toBitVec_mul, toBitVec_sum_mul, noise_eq_sum eCovers dbCovers,
    Int.cast_add, Int.cast_natCast, Nat.cast_mul, natCast_toNat]
  congr 2

/--
Retrieval is correct: after any earlier queries, a created query whose consumed
error row keeps the noise of every column in the half-open window of one
rounding step decodes to the requested database row.
-/
theorem parseResponse_retrieves_row {bp : BaseParams} {cp before after : ClientParams}
    {query : Query} {earlier : List ℕ} {i : ℕ} (positive : 1 ≤ p) (small : p ≤ 31)
    (dbShape : db.HasShape m w) (bounded : ∀ value ∈ db.elements, value.toNat < 2 ^ p)
    (aShape : A.HasShape dim m) (sCovers : S.Covers queries dim) (eCovers : E.Covers queries m)
    (served : BaseParams.ofLwe seed A db m elemSize p dim = some bp)
    (prepared : ClientParams.ofSecrets A S E bp.H m dim p w = some cp)
    (consumed : Query.createAll cp earlier = some before)
    (created : Query.create before i = some (.ok query, after))
    (noiseSmall : ∀ j < w,
      -((2 ^ 32 / 2 ^ p : ℕ) : ℤ) < 2 * noise E db (before.B.rows - 1) j ∧
        2 * noise E db (before.B.rows - 1) j ≤ ((2 ^ 32 / 2 ^ p : ℕ) : ℤ)) :
    ∃ response, Response.create bp query = some response ∧
      query.parseResponse after response = some (db.rowAt i) := by
  rcases ofLwe_spec (p := p) aShape dbShape with
    ⟨bp', served', -, hShape, hMatrix, tShape, tMatrix⟩
  cases served.symm.trans served'
  rcases ofSecrets_spec aShape sCovers eCovers hShape.toCovers with
    ⟨B, C, prepared', bShape, bMatrix, cShape, cMatrix⟩
  cases prepared.symm.trans prepared'
  have fresh : ClientParams.Fresh ⟨dim, m, p, w, B, C⟩ queries m w := ⟨bShape, cShape, small⟩
  have reached := Query.createAll_remaining fresh earlier le_rfl
  rw [fresh.remaining_all] at reached
  cases consumed.symm.trans reached
  rcases create_ok fresh (Nat.sub_le _ _) created with
    ⟨k, column, keptEq, rfl, rfl, unmask, selector⟩
  simp only at unmask selector
  have multiplied := FlatMatrix.multByVector_spec tShape.toCovers
  refine ⟨⟨_⟩, by rw [Response.create, selector, multiplied], ?_⟩
  rw [FlatMatrix.rowAt_eq_ofFn dbShape.toCovers]
  apply parseResponse_columns (w := w) small rfl unmask
  intro j
  have entryMem : db.toMatrix m w column j ∈ db.elements :=
    FlatMatrix.toMatrix_mem dbShape.toCovers column j
  have window := noiseSmall j j.2
  have consumedRow : (ClientParams.remaining ⟨dim, m, p, w, B, C⟩ (queries - earlier.length)).B.rows
      - 1 = k := by
    rw [keptEq]
    rfl
  rw [consumedRow] at window
  apply parseColumn_recovers positive small (bounded _ entryMem) window.1 window.2
  rw [← unmasked_toNat eCovers dbShape.toCovers, tMatrix, cMatrix, hMatrix, bMatrix, unmasked_eq]

/-- Noise `-1` on a zero entry wraps to the top of the modulus and still decodes to `0`. -/
theorem parseResponse_retrieves_zero_below_noise :
    ∃ response,
      Response.create ⟨1, 2, 1, 1, [], ⟨1, 2, 2, [3, 5]⟩, ⟨1, 1, 1, [3]⟩, ⟨2, 1, 2, [1, 0]⟩,
        ⟨1, 2, 2, [1, 0]⟩⟩ ⟨[20, 2147483684], [21]⟩ = some response ∧
      Query.parseResponse ⟨[20, 2147483684], [21]⟩ ⟨1, 2, 1, 1, ⟨0, 2, 0, []⟩, ⟨0, 1, 0, []⟩⟩
        response = some [0] := by
  have dbShape : FlatMatrix.HasShape ⟨2, 1, 2, [1, 0]⟩ 2 1 :=
    ⟨⟨rfl, rfl, rfl, by decide, by decide, by decide⟩, rfl⟩
  exact parseResponse_retrieves_row (p := 1) (S := ⟨1, 1, 1, [7]⟩)
    (E := ⟨1, 2, 2, [4294967295, 1]⟩) (A := ⟨1, 2, 2, [3, 5]⟩) (i := 1)
    (by decide) (by decide) dbShape
    (List.forall_mem_cons.mpr ⟨by decide, List.forall_mem_singleton.mpr (by decide)⟩)
    ⟨⟨rfl, rfl, rfl, by decide, by decide, by decide⟩, rfl⟩
    ⟨rfl, rfl, rfl, by decide, by decide, by decide⟩
    ⟨rfl, rfl, rfl, by decide, by decide, by decide⟩ rfl rfl
    (show Query.createAll _ [] = _ from rfl) rfl (by decide)

end Retrieval

end PracticalCrypto.Frodo
