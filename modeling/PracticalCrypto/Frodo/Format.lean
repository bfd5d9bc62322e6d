import Mathlib.Data.Nat.Bitwise
import PracticalCrypto.Frodo.FlatMatrix
import PracticalCrypto.Library.Handler
import PracticalCrypto.Library.Wires
import PracticalCrypto.Library.Base64

/-!
# The data formats of FrodoPIR

This file embeds the module `format` of `matrix/src/utils.rs` and of `pir/src/utils.rs`,
and `Matrix::new_from_vals`, which cuts the bits of every database element into cells
of `plaintext_bits` bits. As in the matrix layer, `none` is a panic of the source: an
index or a slice outside a vector, or a division by zero.

The `base64` crate is outside the repository; its two functions are a parameter. The
index that `bits_to_bytes_le` computes in floating point is exact for every index
below `2^53`, and is a division here.

The bits of a byte string are `Wires.ofBytes`, the least significant bit of every byte
first. The specification lemmas read the other functions through it.
-/

namespace PracticalCrypto.Frodo

open Wires

/-- The functions of the `base64` crate. -/
structure Base64Crate where
  DecodeError : Type
  encode : List UInt8 → String
  decode : String → Except DecodeError (List UInt8)

/-- Decoding returns what was encoded. -/
def Base64Crate.RoundTrips (base64 : Base64Crate) : Prop :=
  ∀ bytes, base64.decode (base64.encode bytes) = .ok bytes

section Model

def u8ToBitsLe (byte : UInt8) : List Bool :=
  (List.range 8).map fun i => decide (0 < UInt8.ofNat (2 ^ i) &&& byte)

/-- A round of the loop of `bits_to_bytes_le`. -/
def addBit (bytes : List UInt8) (entry : Bool × ℕ) : List UInt8 :=
  if entry.1 then bytes.modify (entry.2 / 8) (· + UInt8.ofNat (2 ^ (entry.2 % 8))) else bytes

def bitsToBytesLe (bits : List Bool) : List UInt8 :=
  bits.zipIdx.foldl addBit (List.replicate ((bits.length + 7) / 8) 0)

def bytesToBitsLe (bytes : List UInt8) : List Bool :=
  (bytes.map u8ToBitsLe).foldl (· ++ ·) []

def u32SizedBytesFromVec (bytes : List UInt8) : Except String (List UInt8) :=
  if bytes.length = 4 then .ok bytes
  else .error ("Unexpected vector size: " ++ toString bytes)

/-- `u32::from_le_bytes`. -/
def u32FromLeBytes (bytes : List UInt8) : UInt32 := UInt32.ofNat (BigEndian.toNat bytes.reverse)

/-- `u32::to_le_bytes`. -/
def u32ToLeBytes (x : UInt32) : List UInt8 := (BigEndian.ofNat 4 x.toNat).reverse

def bitsToU32Le (bits : List Bool) : Except String UInt32 := do
  let bytes := bitsToBytesLe bits
  if 4 < bytes.length then
    .error ("bytes are too long to parse as u16, length: " ++ toString bytes.length)
  else do
    let sized ← u32SizedBytesFromVec (bytes ++ List.replicate (4 - bytes.length) 0)
    .ok (u32FromLeBytes sized)

def u32ToBitsLe (x : UInt32) (bitLen : ℕ) : Option (List Bool) :=
  let bits := (u32ToLeBytes x).flatMap u8ToBitsLe
  if bitLen ≤ bits.length then some (bits.take bitLen) else none

/-- The body of the loop of `bytes_from_u32_slice`: the last entry has the remaining bits only. -/
def entryBits (v : List UInt32) (entryBitLen totalBitLen i : ℕ) : Option (List Bool) := do
  let entry ← v[i]?
  if i ≠ v.length - 1 then u32ToBitsLe entry entryBitLen
  else u32ToBitsLe entry (totalBitLen % entryBitLen)

def bytesFromU32Slice (v : List UInt32) (entryBitLen totalBitLen : ℕ) : Option (List UInt8) :=
  if entryBitLen = 0 then none
  else do
    let bits ← (List.range v.length).mapM (entryBits v entryBitLen totalBitLen)
    some (bitsToBytesLe bits.flatten)

variable (base64 : Base64Crate)

def base64FromU32Slice (v : List UInt32) (entryBitLen totalBitLen : ℕ) : Option String := do
  let bytes ← bytesFromU32Slice v entryBitLen totalBitLen
  some (base64.encode bytes)

/-- The errors of `Matrix::new_from_vals`. -/
inductive ValueError where
  | decodeError (error : base64.DecodeError)
  | errorUnexpectedInputSize (details : String)

/-- A cell of `Matrix::new_from_vals`: the bits from `j * plaintext_bits` on. -/
def valueCell (bits : List Bool) (plaintextBits j : ℕ) : Option (Except String UInt32) :=
  let endBound := (j + 1) * plaintextBits
  if endBound < bits.length then
    some (bitsToU32Le ((bits.take endBound).drop (j * plaintextBits)))
  else if j * plaintextBits ≤ bits.length then some (bitsToU32Le (bits.drop (j * plaintextBits)))
  else none

/-- The row of an element in `Matrix::new_from_vals`. -/
def valueRow (plaintextBits rowWidth : ℕ) (data : String) :
    ExceptT (ValueError base64) Option (List UInt32) :=
  match base64.decode data with
  | .error error => throw (.decodeError error)
  | .ok bytes =>
      (List.range rowWidth).mapM fun j =>
        ExceptT.mk ((valueCell (bytesToBitsLe bytes) plaintextBits j).map
          (Except.mapError .errorUnexpectedInputSize))

/-- `elem_size / plaintext_bits`, rounded up. -/
def rowWidthOf (elemSize plaintextBits : ℕ) : ℕ :=
  if elemSize % plaintextBits ≠ 0 then elemSize / plaintextBits + 1 else elemSize / plaintextBits

/-- A round of the outer loop of `Matrix::new_from_vals`. -/
def indexedRow (vals : List String) (plaintextBits rowWidth i : ℕ) :
    ExceptT (ValueError base64) Option (List UInt32) :=
  match vals[i]? with
  | none => ExceptT.mk none
  | some data => valueRow base64 plaintextBits rowWidth data

/-- `Matrix::new_from_vals`. -/
def FlatMatrix.newFromVals (vals : List String) (rows elemSize plaintextBits : ℕ) :
    ExceptT (ValueError base64) Option FlatMatrix :=
  if rows = 0 ∨ plaintextBits = 0 then ExceptT.mk none
  else do
    let rowWidth := rowWidthOf elemSize plaintextBits
    let result ← (List.range rows).mapM (indexedRow base64 vals plaintextBits rowWidth)
    ExceptT.mk ((withVector result.flatten rows rowWidth).map .ok)

end Model

section Bits

theorem u8ToBitsLe_eq (byte : UInt8) : u8ToBitsLe byte = ofByte byte := by
  apply List.map_congr_left
  intro i inRange
  have power : 2 ^ i < 2 ^ 8 := Nat.pow_lt_pow_right (by omega) (List.mem_range.mp inRange)
  have masked : (UInt8.ofNat (2 ^ i) &&& byte).toNat = 2 ^ i * (byte.toNat.testBit i).toNat := by
    rw [UInt8.toNat_and, UInt8.toNat_ofNat_of_lt' power, Nat.two_pow_and]
  simp only [UInt8.lt_iff_toNat_lt, masked]
  cases byte.toNat.testBit i <;> simp

@[simp]
theorem bytesToBitsLe_eq (bytes : List UInt8) : bytesToBitsLe bytes = ofBytes bytes := by
  have folded : ∀ (parts : List (List Bool)) (start : List Bool),
      parts.foldl (· ++ ·) start = start ++ parts.flatten := by
    intro parts
    induction parts with
    | nil => simp
    | cons part parts ih => simp [ih]
  simp [bytesToBitsLe, folded, ofBytes, List.flatMap, funext u8ToBitsLe_eq]

theorem ofByte_add_bit (byte : UInt8) {i : ℕ} (inByte : i < 8)
    (clear : (ofByte byte).getD i false = false) :
    ofByte (byte + UInt8.ofNat (2 ^ i)) = (ofByte byte).set i true := by
  have notSet : byte.toNat.testBit i = false := by simpa [ofByte, inByte] using clear
  have disjoint : byte.toBitVec &&& BitVec.twoPow 8 i = 0#8 := by
    apply BitVec.eq_of_getLsbD_eq
    intro j inBits
    simp only [BitVec.getLsbD_and, BitVec.getLsbD_twoPow, BitVec.getLsbD_zero]
    by_cases same : i = j
    · subst same
      simp [← BitVec.testBit_toNat, notSet]
    · simp [same]
  -- so the sum has no carry
  have sum : (byte + UInt8.ofNat (2 ^ i)).toNat = (byte.toBitVec ||| BitVec.twoPow 8 i).toNat := by
    rw [← BitVec.add_eq_or_of_and_eq_zero _ _ disjoint]
    simp [BitVec.toNat_twoPow]
  apply List.ext_getElem
  · simp
  · intro j inSum inSet
    have inBits : j < 8 := by simpa using inSum
    simp only [ofByte, sum, List.getElem_map, List.getElem_range, List.getElem_set]
    rw [BitVec.testBit_toNat, BitVec.getLsbD_or, BitVec.getLsbD_twoPow, ← BitVec.testBit_toNat]
    by_cases same : i = j
    · simp [same, inBits]
    · simp [same]

theorem ofBytes_addBit (bytes : List UInt8) {i : ℕ} (inBytes : i < 8 * bytes.length)
    (clear : (ofBytes bytes).getD i false = false) (bit : Bool) :
    ofBytes (addBit bytes (bit, i)) = (ofBytes bytes).set i bit := by
  cases bit with
  | false =>
      have inWires : i < (ofBytes bytes).length := by simpa using inBytes
      have kept : (ofBytes bytes)[i] = false := by
        rw [← clear, List.getD_eq_getElem _ _ inWires]
      simp only [addBit, Bool.false_eq_true, if_false]
      rw [← kept, List.set_getElem_self]
  | true =>
      simp only [addBit, if_true]
      induction bytes generalizing i with
      | nil => simp at inBytes
      | cons byte bytes ih =>
          rw [ofBytes_cons] at clear ⊢
          rcases Nat.lt_or_ge i 8 with inByte | beyond
          · rw [List.getD_append _ _ _ _ (by simpa using inByte)] at clear
            rw [Nat.div_eq_of_lt inByte, Nat.mod_eq_of_lt inByte, List.modify_zero_cons,
              ofBytes_cons, ofByte_add_bit byte inByte clear,
              List.set_append_left _ _ (by simpa using inByte)]
          · obtain ⟨k, rfl⟩ := Nat.exists_eq_add_of_le beyond
            have later : (8 + k) / 8 = k / 8 + 1 := by omega
            rw [List.getD_append_right _ _ _ _ (by simp), length_ofByte,
              Nat.add_sub_cancel_left] at clear
            rw [later, Nat.add_mod_left, List.modify_succ_cons, ofBytes_cons,
              ih (by simp only [List.length_cons] at inBytes; omega) clear,
              List.set_append_right _ _ (by simp), length_ofByte, Nat.add_sub_cancel_left]

/-- The loop of `bits_to_bytes_le` writes the bits one after the other into zero bytes. -/
theorem ofBytes_foldl_addBit (bits : List Bool) {size : ℕ} (fits : bits.length ≤ 8 * size) :
    ofBytes (bits.zipIdx.foldl addBit (List.replicate size 0)) =
      bits ++ List.replicate (8 * size - bits.length) false := by
  induction bits using List.reverseRecOn with
  | nil => simp [ofBytes_replicate_zero]
  | append_singleton bits bit ih =>
      rw [List.length_append, List.length_singleton] at fits
      have before := ih (by omega)
      have room : 8 * size - bits.length = (8 * size - (bits.length + 1)) + 1 := by omega
      rw [room, List.replicate_succ] at before
      have count : 8 * (bits.zipIdx.foldl addBit (List.replicate size 0)).length = 8 * size := by
        rw [← length_ofBytes, before]
        simp
        omega
      rw [List.zipIdx_append, List.foldl_append, List.zipIdx_singleton, List.foldl_cons,
        List.foldl_nil, Nat.zero_add, ofBytes_addBit _ (by omega) (by simp [before]), before]
      simp

theorem ofBytes_bitsToBytesLe (bits : List Bool) :
    ofBytes (bitsToBytesLe bits) =
      bits ++ List.replicate (8 * ((bits.length + 7) / 8) - bits.length) false :=
  ofBytes_foldl_addBit bits (by omega)

@[simp]
theorem length_bitsToBytesLe (bits : List Bool) :
    (bitsToBytesLe bits).length = (bits.length + 7) / 8 := by
  have lengths := congrArg List.length (ofBytes_bitsToBytesLe bits)
  simp only [length_ofBytes, List.length_append, List.length_replicate] at lengths
  omega

theorem bitsToBytesLe_ofBytes (bytes : List UInt8) : bitsToBytesLe (ofBytes bytes) = bytes := by
  apply ofBytes_injective
  rw [ofBytes_bitsToBytesLe, length_ofBytes]
  have whole : 8 * ((8 * bytes.length + 7) / 8) - 8 * bytes.length = 0 := by omega
  rw [whole, List.replicate_zero, List.append_nil]

end Bits

section Loops

theorem bind_eq_pure {ε α β : Type} {first : ExceptT ε Option α} {next : α → ExceptT ε Option β}
    {result : β} (returned : first >>= next = pure result) :
    ∃ value, first = pure value ∧ next value = pure result := by
  match first with
  | some (.ok value) => exact ⟨value, rfl, returned⟩
  | some (.error _) | none => cases returned

theorem forall₂_of_mapM_eq_pure {ε α β : Type} {items : List α} {found : List β}
    {f : α → ExceptT ε Option β} (returned : items.mapM f = pure found) :
    List.Forall₂ (fun item value => f item = pure value) items found := by
  induction items generalizing found with
  | nil =>
      cases returned
      exact .nil
  | cons item items ih =>
      rw [List.mapM_cons] at returned
      rcases bind_eq_pure returned with ⟨value, head, rest⟩
      rcases bind_eq_pure rest with ⟨later, tail, whole⟩
      cases whole
      exact .cons head (ih tail)

end Loops

section Cells

theorem u32ToLeBytes_u32FromLeBytes {bytes : List UInt8} (four : bytes.length = 4) :
    u32ToLeBytes (u32FromLeBytes bytes) = bytes := by
  have small : BigEndian.toNat bytes.reverse < 2 ^ 32 := by
    have stored := BigEndian.toNat_ofNat bytes.reverse.length (BigEndian.toNat bytes.reverse)
    rw [BigEndian.ofNat_toNat, List.length_reverse, four] at stored
    rw [stored]
    exact Nat.mod_lt _ (by norm_num)
  have back := BigEndian.ofNat_toNat bytes.reverse
  rw [List.length_reverse, four] at back
  rw [u32ToLeBytes, u32FromLeBytes, UInt32.toNat_ofNat_of_lt' small, back, List.reverse_reverse]

/-- Up to 32 bits fit in a cell, whose bytes are these bits and zeros. -/
theorem bitsToU32Le_eq {bits : List Bool} (fits : bits.length ≤ 32) :
    ∃ bytes, bytes.length = 4 ∧
      ofBytes bytes = bits ++ List.replicate (32 - bits.length) false ∧
      bitsToU32Le bits = .ok (u32FromLeBytes bytes) := by
  have notLong : ¬4 < (bitsToBytesLe bits).length := by
    rw [length_bitsToBytesLe]
    omega
  have four : (bitsToBytesLe bits ++
      List.replicate (4 - (bitsToBytesLe bits).length) 0).length = 4 := by
    simp only [List.length_append, List.length_replicate]
    omega
  refine ⟨_, four, ?_, ?_⟩
  · rw [ofBytes_append, ofBytes_bitsToBytesLe, ofBytes_replicate_zero, List.append_assoc,
      List.replicate_append_replicate, length_bitsToBytesLe]
    congr 2
    omega
  · simp only [bitsToU32Le, if_neg notLong, u32SizedBytesFromVec, if_pos four]
    rfl

/-- Any number of the low bits of a cell can be read back. -/
theorem bitsToU32Le_spec {bits : List Bool} (fits : bits.length ≤ 32) :
    ∃ cell, bitsToU32Le bits = .ok cell ∧
      ∀ bitLen ≤ bits.length, u32ToBitsLe cell bitLen = some (bits.take bitLen) := by
  obtain ⟨bytes, four, padded, parsed⟩ := bitsToU32Le_eq fits
  refine ⟨_, parsed, ?_⟩
  intro bitLen inBits
  have wires : bytes.flatMap u8ToBitsLe = ofBytes bytes := by
    rw [ofBytes, funext u8ToBitsLe_eq]
  have within : bitLen ≤ 8 * 4 := by omega
  rw [u32ToBitsLe, u32ToLeBytes_u32FromLeBytes four, wires, length_ofBytes, four,
    if_pos within, padded, List.take_append_of_le_length inBits]

theorem valueCell_eq {bits : List Bool} {plaintextBits j : ℕ}
    (inBits : j * plaintextBits ≤ bits.length) :
    valueCell bits plaintextBits j =
      some (bitsToU32Le (slice bits (j * plaintextBits) plaintextBits)) := by
  have next : (j + 1) * plaintextBits = j * plaintextBits + plaintextBits := Nat.succ_mul _ _
  rw [valueCell, if_pos inBits, next]
  split
  · rw [slice, List.drop_take, Nat.add_sub_cancel_left]
  · rw [slice, List.take_of_length_le]
    simp only [List.length_drop]
    omega

/-- The cell of the bits from `j * plaintext_bits` on. -/
def cellOf (bits : List Bool) (plaintextBits j : ℕ) : UInt32 :=
  match bitsToU32Le (slice bits (j * plaintextBits) plaintextBits) with
  | .ok cell => cell
  | .error _ => 0

variable {bits : List Bool} {plaintextBits : ℕ}

theorem bitsToU32Le_slice (fits : plaintextBits ≤ 32) (j : ℕ) :
    bitsToU32Le (slice bits (j * plaintextBits) plaintextBits) =
      .ok (cellOf bits plaintextBits j) := by
  have short : (slice bits (j * plaintextBits) plaintextBits).length ≤ 32 := by
    rw [length_slice]
    omega
  rcases bitsToU32Le_spec short with ⟨cell, parsed, -⟩
  simp [cellOf, parsed]

theorem u32ToBitsLe_cellOf (fits : plaintextBits ≤ 32) {j bitLen : ℕ}
    (inCell : bitLen ≤ plaintextBits) (inBits : j * plaintextBits + bitLen ≤ bits.length) :
    u32ToBitsLe (cellOf bits plaintextBits j) bitLen =
      some (slice bits (j * plaintextBits) bitLen) := by
  have size := length_slice bits (j * plaintextBits) plaintextBits
  have short : (slice bits (j * plaintextBits) plaintextBits).length ≤ 32 := by omega
  rcases bitsToU32Le_spec short with ⟨cell, parsed, readBack⟩
  have stored : cellOf bits plaintextBits j = cell := by simp [cellOf, parsed]
  rw [stored, readBack bitLen (by omega), slice, List.take_take, Nat.min_eq_left inCell]
  rfl

theorem rowWidthOf_pos {elemSize : ℕ} (positive : 0 < elemSize) (bitsPos : 0 < plaintextBits) :
    0 < rowWidthOf elemSize plaintextBits := by
  rw [rowWidthOf]
  split
  case isTrue => exact Nat.succ_pos _
  case isFalse whole =>
    exact Nat.div_pos (Nat.le_of_dvd positive (Nat.dvd_of_mod_eq_zero (not_not.mp whole))) bitsPos

theorem mul_le_of_lt_rowWidthOf {elemSize j : ℕ} (inRow : j < rowWidthOf elemSize plaintextBits) :
    j * plaintextBits ≤ elemSize := by
  have before : j ≤ elemSize / plaintextBits := by
    rw [rowWidthOf] at inRow
    split at inRow <;> omega
  exact (Nat.mul_le_mul_right _ before).trans (Nat.div_mul_le_self _ _)

/-- The bits that `bytes_from_u32_slice` reads out of the cells of an element. -/
theorem keptBits_eq (elemSize plaintextBits : ℕ) :
    (rowWidthOf elemSize plaintextBits - 1) * plaintextBits + elemSize % plaintextBits =
      if elemSize % plaintextBits = 0 then elemSize - plaintextBits else elemSize := by
  have split := Nat.div_add_mod' elemSize plaintextBits
  by_cases whole : elemSize % plaintextBits = 0
  · rw [if_pos whole, rowWidthOf, if_neg (not_not.mpr whole), Nat.sub_mul, Nat.one_mul]
    omega
  · rw [if_neg whole, rowWidthOf, if_pos whole, Nat.add_sub_cancel, split]

/-- All entries but the last give their full bits, and the last one the remainder. -/
theorem bytesFromU32Slice_cells (fits : plaintextBits ≤ 32) (bitsPos : 0 < plaintextBits)
    (positive : 0 < bits.length) :
    bytesFromU32Slice ((List.range (rowWidthOf bits.length plaintextBits)).map
        (cellOf bits plaintextBits)) plaintextBits bits.length =
      some (bitsToBytesLe (bits.take ((rowWidthOf bits.length plaintextBits - 1) * plaintextBits +
        bits.length % plaintextBits))) := by
  have kept := keptBits_eq bits.length plaintextBits
  obtain ⟨last, width⟩ := Nat.exists_eq_add_one.mpr (rowWidthOf_pos positive bitsPos)
  rw [width, Nat.add_sub_cancel] at kept ⊢
  have within : last * plaintextBits + bits.length % plaintextBits ≤ bits.length := by
    rw [kept]
    split <;> omega
  have lengthEq : ((List.range (last + 1)).map (cellOf bits plaintextBits)).length = last + 1 := by
    simp
  have entries : (List.range (last + 1)).mapM (entryBits ((List.range (last + 1)).map
      (cellOf bits plaintextBits)) plaintextBits bits.length) =
      some ((List.range (last + 1)).map fun i => slice bits (i * plaintextBits)
        (if i = last then bits.length % plaintextBits else plaintextBits)) := by
    apply Handler.mapM_eq_pure
    intro i inRow
    have inWidth : i < last + 1 := List.mem_range.mp inRow
    simp only [entryBits, lengthEq, Nat.add_sub_cancel, List.getElem?_map,
      List.getElem?_range inWidth, Option.map_some, Option.bind_eq_bind, Option.bind_some]
    by_cases isLast : i = last
    · subst isLast
      simp only [ne_eq, not_true_eq_false, if_false, if_true]
      exact u32ToBitsLe_cellOf fits (Nat.mod_lt _ bitsPos).le within
    · have before : (i + 1) * plaintextBits ≤ last * plaintextBits :=
        Nat.mul_le_mul_right _ (by omega)
      rw [Nat.succ_mul] at before
      simp only [ne_eq, isLast, not_false_eq_true, if_true, if_false]
      exact u32ToBitsLe_cellOf fits le_rfl (by omega)
  rw [bytesFromU32Slice, if_neg (by omega), lengthEq, entries]
  simp only [Option.bind_eq_bind, Option.bind_some, List.range_succ, List.map_append,
    List.flatten_append, List.map_singleton, if_true, List.flatten_singleton]
  congr 2
  rw [List.take_add, take_eq_flatMap_slice, List.flatMap]
  congr 2
  apply List.map_congr_left
  intro i inFront
  have notLast : i ≠ last := by
    have := List.mem_range.mp inFront
    omega
  rw [if_neg notLast]

end Cells

section Database

variable {base64 : Base64Crate} {plaintextBits elemSize rows : ℕ} {vals : List String}

theorem valueRow_eq {bytes : List UInt8} (codec : base64.RoundTrips) (fits : plaintextBits ≤ 32)
    (size : 8 * bytes.length = elemSize) :
    valueRow base64 plaintextBits (rowWidthOf elemSize plaintextBits) (base64.encode bytes) =
      pure ((List.range (rowWidthOf elemSize plaintextBits)).map
        (cellOf (ofBytes bytes) plaintextBits)) := by
  simp only [valueRow, codec bytes]
  apply Handler.mapM_eq_pure
  intro j inRow
  have inBits : j * plaintextBits ≤ (ofBytes bytes).length := by
    rw [length_ofBytes, size]
    exact mul_le_of_lt_rowWidthOf (List.mem_range.mp inRow)
  rw [bytesToBitsLe_eq, valueCell_eq inBits, bitsToU32Le_slice fits]
  rfl

theorem length_indexedRow {rowWidth index : ℕ} {row : List UInt32}
    (returned : indexedRow base64 vals plaintextBits rowWidth index = pure row) :
    row.length = rowWidth := by
  rw [indexedRow] at returned
  split at returned
  · cases returned
  · rw [valueRow] at returned
    split at returned
    · cases returned
    · simpa using (forall₂_of_mapM_eq_pure returned).length_eq.symm

/-- The rows of the values, one after the other, are the elements of the matrix. -/
theorem newFromVals_rows {db : FlatMatrix}
    (returned : FlatMatrix.newFromVals base64 vals rows elemSize plaintextBits = pure db) :
    ∃ result : List (List UInt32),
      db = ⟨rows, rowWidthOf elemSize plaintextBits, rows * rowWidthOf elemSize plaintextBits,
        result.flatten⟩ ∧
      result.map List.length = List.replicate rows (rowWidthOf elemSize plaintextBits) ∧
      ∀ i (inResult : i < result.length),
        indexedRow base64 vals plaintextBits (rowWidthOf elemSize plaintextBits) i =
          pure result[i] := by
  rw [FlatMatrix.newFromVals] at returned
  split at returned
  · cases returned
  rcases bind_eq_pure returned with ⟨result, collected, wrapped⟩
  have each := forall₂_of_mapM_eq_pure collected
  have count : result.length = rows := by simpa using each.length_eq.symm
  have built : ∀ i (inResult : i < result.length),
      indexedRow base64 vals plaintextBits (rowWidthOf elemSize plaintextBits) i =
        pure result[i] := by
    intro i inResult
    simpa using each.get (by simpa [count] using inResult) inResult
  have widths : result.map List.length =
      List.replicate rows (rowWidthOf elemSize plaintextBits) := by
    apply List.eq_replicate_iff.mpr
    constructor
    · simpa using count
    · intro width member
      rcases List.mem_map.mp member with ⟨row, inResult, rfl⟩
      rcases List.mem_iff_getElem.mp inResult with ⟨i, inside, rfl⟩
      exact length_indexedRow (built i inside)
  rcases Option.map_eq_some_iff.mp wrapped with ⟨matrix, whole, same⟩
  rcases FlatMatrix.withVector_eq_some.mp whole with ⟨-, -, rfl⟩
  cases same
  exact ⟨result, rfl, widths, built⟩

theorem rowAt_newFromVals {db : FlatMatrix} {index : ℕ}
    (returned : FlatMatrix.newFromVals base64 vals rows elemSize plaintextBits = pure db)
    (inRows : index < rows) :
    indexedRow base64 vals plaintextBits (rowWidthOf elemSize plaintextBits) index =
      pure (db.rowAt index) := by
  rcases newFromVals_rows returned with ⟨result, rfl, widths, built⟩
  have count : result.length = rows := by simpa using congrArg List.length widths
  have part := slice_flatten widths index
  rw [List.take_replicate, Nat.min_eq_left inRows.le, List.sum_replicate_nat] at part
  have entry : result.getD index [] = result[index] := by simp [inRows, count]
  rw [built index (by omega), ← entry, ← part]
  simp [FlatMatrix.rowAt, RowMajor.row, slice, inRows]

theorem newFromVals_returns (codec : base64.RoundTrips) (bitsPos : 0 < plaintextBits)
    (fits : plaintextBits ≤ 32) (positive : 0 < elemSize) (rowsPos : 0 < rows)
    (encoded : ∀ i < rows, ∃ bytes, 8 * bytes.length = elemSize ∧
      vals[i]? = some (base64.encode bytes)) :
    ∃ db, FlatMatrix.newFromVals base64 vals rows elemSize plaintextBits = pure db := by
  choose contents size value using encoded
  have collected : (List.range rows).mapM (indexedRow base64 vals plaintextBits
      (rowWidthOf elemSize plaintextBits)) =
      (pure ((List.range rows).map fun i => if inRows : i < rows then
        (List.range (rowWidthOf elemSize plaintextBits)).map
          (cellOf (ofBytes (contents i inRows)) plaintextBits) else []) :
        ExceptT (ValueError base64) Option _) := by
    apply Handler.mapM_eq_pure
    intro i member
    have inRows : i < rows := List.mem_range.mp member
    simp only [indexedRow, value i inRows, dif_pos inRows]
    exact valueRow_eq codec fits (size i inRows)
  rw [FlatMatrix.newFromVals, if_neg (by omega)]
  simp only [collected, pure_bind,
    FlatMatrix.withVector_eq _ rowsPos (rowWidthOf_pos positive bitsPos)]
  exact ⟨_, rfl⟩

/--
Without a remainder the last cell is dropped: the bytes come back only if zero bits were
dropped, and only if the padding of the last byte replaces them.
-/
theorem bitsToBytesLe_take_iff {bytes : List UInt8} (bitsPos : 0 < plaintextBits)
    (inside : plaintextBits ≤ 8 * bytes.length) :
    bitsToBytesLe ((ofBytes bytes).take (8 * bytes.length - plaintextBits)) = bytes ↔
      plaintextBits < 8 ∧
        ∀ bit ∈ (ofBytes bytes).drop (8 * bytes.length - plaintextBits), bit = false := by
  have size : ((ofBytes bytes).take (8 * bytes.length - plaintextBits)).length =
      8 * bytes.length - plaintextBits := by
    rw [List.length_take, length_ofBytes]
    omega
  have dropped : ((ofBytes bytes).drop (8 * bytes.length - plaintextBits)).length =
      plaintextBits := by
    rw [List.length_drop, length_ofBytes]
    omega
  have unpacked := ofBytes_bitsToBytesLe ((ofBytes bytes).take (8 * bytes.length - plaintextBits))
  rw [size] at unpacked
  constructor
  · intro same
    have lengths := congrArg List.length same
    rw [length_bitsToBytesLe, size] at lengths
    have short : plaintextBits < 8 := by omega
    have padding : 8 * ((8 * bytes.length - plaintextBits + 7) / 8) -
        (8 * bytes.length - plaintextBits) = plaintextBits := by omega
    rw [same, padding] at unpacked
    have zeros : (ofBytes bytes).drop (8 * bytes.length - plaintextBits) =
        List.replicate plaintextBits false := by
      conv_lhs => rw [unpacked]
      rw [List.drop_append_of_le_length (by omega), List.drop_of_length_le (by omega),
        List.nil_append]
    exact ⟨short, (List.eq_replicate_iff.mp zeros).2⟩
  · rintro ⟨short, zeros⟩
    have padding : 8 * ((8 * bytes.length - plaintextBits + 7) / 8) -
        (8 * bytes.length - plaintextBits) = plaintextBits := by omega
    apply ofBytes_injective
    rw [unpacked, padding, ← List.eq_replicate_iff.mpr ⟨dropped, zeros⟩, List.take_append_drop]

/--
An element of the database comes back as its base64 text exactly if its last cell is
shorter than the others, or its last cell is all zero and fits in the padding of the
last byte.
-/
theorem base64FromU32Slice_newFromVals (base64 : Base64Crate) (codec : base64.RoundTrips)
    (vals : List String) (rows elemSize plaintextBits : ℕ)
    (bitsPos : 1 ≤ plaintextBits) (fits : plaintextBits ≤ 32)
    (positive : 0 < elemSize) (wholeBytes : 8 ∣ elemSize) :
    (0 < rows → (∀ i < rows, ∃ bytes, bytes.length = elemSize / 8 ∧
        vals[i]? = some (base64.encode bytes)) →
      ∃ db, FlatMatrix.newFromVals base64 vals rows elemSize plaintextBits = pure db) ∧
    ∀ db, FlatMatrix.newFromVals base64 vals rows elemSize plaintextBits = pure db →
      ∀ i < rows, ∀ bytes : List UInt8, bytes.length = elemSize / 8 →
        vals[i]? = some (base64.encode bytes) →
        (base64FromU32Slice base64 (db.rowAt i) plaintextBits elemSize =
            some (base64.encode bytes) ↔
          elemSize % plaintextBits ≠ 0 ∨
            plaintextBits < 8 ∧
              ∀ bit ∈ (bytesToBitsLe bytes).drop (elemSize - plaintextBits), bit = false) := by
  constructor
  · intro rowsPos encoded
    apply newFromVals_returns codec bitsPos fits positive rowsPos
    intro i inRows
    rcases encoded i inRows with ⟨bytes, size, value⟩
    exact ⟨bytes, by omega, value⟩
  · intro db returned i inRows bytes size value
    have bitCount : 8 * bytes.length = elemSize := by omega
    have built := rowAt_newFromVals returned inRows
    simp only [indexedRow, value, valueRow_eq codec fits bitCount] at built
    have sameRow : db.rowAt i = (List.range (rowWidthOf elemSize plaintextBits)).map
        (cellOf (ofBytes bytes) plaintextBits) := by
      exact (Except.ok.inj (Option.some.inj built)).symm
    have lengthEq : (ofBytes bytes).length = elemSize := by rw [length_ofBytes, bitCount]
    have someBits : 0 < (ofBytes bytes).length := lengthEq ▸ positive
    have readBack := bytesFromU32Slice_cells fits bitsPos someBits
    rw [lengthEq, ← sameRow, keptBits_eq] at readBack
    have injective : Function.Injective base64.encode := by
      intro left right same
      have decoded := congrArg base64.decode same
      rw [codec, codec] at decoded
      cases decoded
      rfl
    simp only [base64FromU32Slice, readBack, Option.bind_eq_bind, Option.bind_some,
      Option.some.injEq, injective.eq_iff, bytesToBitsLe_eq]
    by_cases whole : elemSize % plaintextBits = 0
    · have inside : plaintextBits ≤ elemSize :=
        Nat.le_of_dvd positive (Nat.dvd_of_mod_eq_zero whole)
      subst bitCount
      simp only [whole, if_true, ne_eq, not_true_eq_false, false_or]
      exact bitsToBytesLe_take_iff bitsPos inside
    · simp only [whole, if_false, ne_eq, not_false_eq_true, true_or, iff_true]
      rw [List.take_of_length_le (by omega), bitsToBytesLe_ofBytes]

/-- The `base64` crate with the standard alphabet. -/
def standardBase64 : Base64Crate where
  DecodeError := Unit
  encode := Base64.encode
  decode text :=
    match Base64.decode text with
    | some bytes => .ok bytes
    | none => .error ()

theorem standardBase64_roundTrips : standardBase64.RoundTrips := by
  intro bytes
  simp [standardBase64, Base64.decode_encode]

theorem base64FromU32Slice_twelveBitCells :
    ∃ db, FlatMatrix.newFromVals standardBase64 [standardBase64.encode [1, 2]] 1 16 12 = pure db ∧
      base64FromU32Slice standardBase64 (db.rowAt 0) 12 16 =
        some (standardBase64.encode [1, 2]) := by
  have settled := base64FromU32Slice_newFromVals standardBase64 standardBase64_roundTrips
    [standardBase64.encode [1, 2]] 1 16 12 (by decide) (by decide) (by decide) (by decide)
  have encoded : ∀ i < 1, ∃ bytes : List UInt8, bytes.length = 16 / 8 ∧
      [standardBase64.encode [1, 2]][i]? = some (standardBase64.encode bytes) := by
    intro i first
    rw [Nat.lt_one_iff.mp first]
    exact ⟨[1, 2], rfl, rfl⟩
  rcases settled.1 (by decide) encoded with ⟨db, returned⟩
  have comesBack := settled.2 db returned 0 (by decide) [1, 2] rfl rfl
  exact ⟨db, returned, comesBack.mpr (.inl (by decide))⟩

/-- Cells of eight bits divide two bytes exactly, and the second byte is lost. -/
theorem base64FromU32Slice_eightBitCells :
    FlatMatrix.newFromVals standardBase64 ["AQI="] 1 16 8 = pure ⟨1, 2, 2, [1, 2]⟩ ∧
      standardBase64.encode [1, 2] = "AQI=" ∧
      base64FromU32Slice standardBase64 (FlatMatrix.rowAt ⟨1, 2, 2, [1, 2]⟩ 0) 8 16 =
        some "AQ==" ∧
      "AQ==" ≠ "AQI=" := by
  refine ⟨?_, ?_, ?_, ?_⟩
  · rfl
  · rfl
  · rfl
  · decide

end Database

end PracticalCrypto.Frodo
