import Mathlib.Data.List.GetD
import Mathlib.Data.List.OfFn
import Mathlib.Data.UInt
import PracticalCrypto.Library.BigEndian

/-!
# Byte strings on the wires of a circuit

A Boolean circuit reads a byte string as one wire per bit, the least
significant bit of every byte first. The lemmas move a gate or a slice on wires
to the byte strings that the wires carry, so that a circuit is reasoned about
on bytes.
-/

namespace PracticalCrypto.Wires

section Slices

variable {α β γ : Type*}

/-- The `size` entries of a buffer from `offset` on. -/
def slice (buffer : List α) (offset size : ℕ) : List α := (buffer.drop offset).take size

theorem length_slice (buffer : List α) (offset size : ℕ) :
    (slice buffer offset size).length = min size (buffer.length - offset) := by
  simp [slice]

theorem slice_append_left (front back : List α) {offset size : ℕ}
    (inside : offset + size ≤ front.length) :
    slice (front ++ back) offset size = slice front offset size := by
  simp only [slice]
  rw [List.drop_append_of_le_length (by omega), List.take_append_of_le_length]
  simp only [List.length_drop]
  omega

theorem slice_append_right (front back : List α) {offset size : ℕ}
    (beyond : front.length ≤ offset) :
    slice (front ++ back) offset size = slice back (offset - front.length) size := by
  simp only [slice]
  rw [List.drop_append, List.drop_eq_nil_of_le beyond, List.nil_append]

theorem slice_all (buffer : List α) {size : ℕ} (full : buffer.length ≤ size) :
    slice buffer 0 size = buffer := by
  simp only [slice, List.drop_zero]
  exact List.take_of_length_le full

theorem slice_map (change : α → β) (buffer : List α) (offset size : ℕ) :
    slice (buffer.map change) offset size = (slice buffer offset size).map change := by
  simp [slice, List.map_drop, List.map_take]

theorem slice_slice (buffer : List α) {offset size start count : ℕ} (inside : start + count ≤ size) :
    slice (slice buffer offset size) start count = slice buffer (offset + start) count := by
  simp only [slice, List.drop_take, List.drop_drop, List.take_take]
  congr 1
  omega

/-- The `k`-th part of a packed buffer, at the offset that the sizes of the earlier parts give. -/
theorem slice_flatten {parts : List (List α)} {sizes : List ℕ}
    (sized : parts.map List.length = sizes) (k : ℕ) :
    slice parts.flatten (sizes.take k).sum (sizes.getD k 0) = parts.getD k [] := by
  subst sized
  induction parts generalizing k with
  | nil => simp [slice]
  | cons part parts ih =>
      cases k with
      | zero =>
          simp only [List.flatten_cons, List.take_zero, List.sum_nil, List.map_cons,
            List.getD_cons_zero]
          rw [slice_append_left _ _ (by omega), slice_all _ (by omega)]
      | succ k =>
          simp only [List.flatten_cons, List.map_cons, List.take_succ_cons, List.sum_cons,
            List.getD_cons_succ]
          rw [slice_append_right _ _ (by omega), Nat.add_sub_cancel_left, ih]

theorem length_flatten_of_sized {parts : List (List α)} {sizes : List ℕ}
    (sized : parts.map List.length = sizes) : parts.flatten.length = sizes.sum := by
  rw [List.length_flatten, sized]

/-- The front of a buffer is put together again from equal parts. -/
theorem take_eq_flatMap_slice (buffer : List α) (size count : ℕ) :
    buffer.take (count * size) =
      (List.range count).flatMap fun i => slice buffer (i * size) size := by
  induction count with
  | zero => simp
  | succ count ih =>
      rw [Nat.succ_mul, List.take_add, ih, List.range_succ, List.flatMap_append]
      simp [slice]

/-- The parts of a buffer that is packed from parts of one size. -/
theorem map_slice_flatMap {pack : α → List β} {size : ℕ} (sized : ∀ item, (pack item).length = size)
    (items : List α) (read : List β → γ) :
    ((List.range items.length).map fun i => read (slice (items.flatMap pack) (size * i) size)) =
      items.map fun item => read (pack item) := by
  induction items with
  | nil => rfl
  | cons item items ih =>
      have first : slice (pack item ++ items.flatMap pack) 0 size = pack item := by
        rw [slice_append_left _ _ (by rw [sized, Nat.zero_add]), slice_all _ (sized item).le]
      have later : ∀ i, slice (pack item ++ items.flatMap pack) (size * (i + 1)) size =
          slice (items.flatMap pack) (size * i) size := by
        intro i
        rw [slice_append_right _ _ (by rw [sized, Nat.mul_succ]; omega), sized, Nat.mul_succ,
          Nat.add_sub_cancel]
      simp only [List.length_cons, List.range_succ_eq_map, List.map_cons, List.map_map,
        List.flatMap_cons, Nat.mul_zero, first, Function.comp_def, Nat.succ_eq_add_one, later, ih]

theorem eq_iff_getD {left right : List α} (fallback : α)
    (sameLength : left.length = right.length) :
    left = right ↔
      ∀ position < right.length, left.getD position fallback = right.getD position fallback := by
  constructor
  · rintro rfl _ _
    rfl
  · intro same
    apply List.ext_getElem sameLength
    intro position inLeft inRight
    simpa [inLeft, inRight] using same position inRight

/-- The `size` entries of a buffer from `offset` on, copied into an array. -/
def field (buffer : List α) (offset size : ℕ) [Inhabited α] : Fin size → α :=
  fun i => buffer.getD (offset + i.val) default

theorem ofFn_field [Inhabited α] (buffer : List α) {offset size : ℕ}
    (inside : offset + size ≤ buffer.length) :
    List.ofFn (field buffer offset size) = slice buffer offset size := by
  apply List.ext_getElem
  · rw [length_slice, List.length_ofFn]
    omega
  · intro i inField inSlice
    rw [List.length_ofFn] at inField
    simp [field, slice, List.getElem?_eq_getElem (show offset + i < buffer.length by omega)]

theorem getD_ofFn {size i : ℕ} (entries : Fin size → α) (fallback : α) (inArray : i < size) :
    (List.ofFn entries).getD i fallback = entries ⟨i, inArray⟩ := by
  rw [List.getD_eq_getElem _ _ (by simpa using inArray), List.getElem_ofFn]

theorem getD_reverse_ofFn {size i : ℕ} (entries : Fin size → α) (fallback : α)
    (inArray : i < size) :
    (List.ofFn entries).reverse.getD i fallback = entries (Fin.rev ⟨i, inArray⟩) := by
  have inList : i < (List.ofFn entries).length := by simpa using inArray
  rw [List.getD_eq_getElem _ _ (by simpa using inArray), List.getElem_reverse, List.getElem_ofFn]
  congr 1
  apply Fin.ext
  simp only [List.length_ofFn, Fin.val_rev]
  omega

/-- The entries of an array of arrays, one array after the other. -/
def flattenArrays {count size : ℕ} (arrays : Fin count → Fin size → α) : List α :=
  (List.ofFn fun i => List.ofFn (arrays i)).flatten

theorem map_length_ofFn {count size : ℕ} (arrays : Fin count → Fin size → α) :
    (List.ofFn fun i => List.ofFn (arrays i)).map List.length = List.replicate count size := by
  simp [List.map_ofFn, Function.comp_def, List.ofFn_const]

@[simp]
theorem length_flattenArrays {count size : ℕ} (arrays : Fin count → Fin size → α) :
    (flattenArrays arrays).length = size * count := by
  rw [flattenArrays, List.length_flatten, map_length_ofFn, List.sum_replicate_nat, Nat.mul_comm]

theorem slice_flattenArrays {count size : ℕ} (arrays : Fin count → Fin size → α) (i : Fin count) :
    slice (flattenArrays arrays) (size * i.val) size = List.ofFn (arrays i) := by
  have part := slice_flatten (map_length_ofFn arrays) i.val
  have offset : ((List.replicate count size).take i.val).sum = size * i.val := by
    rw [List.take_replicate, Nat.min_eq_left i.isLt.le, List.sum_replicate_nat, Nat.mul_comm]
  rw [offset] at part
  simpa [flattenArrays] using part

theorem field_flattenArrays [Inhabited α] {count size : ℕ} (arrays : Fin count → Fin size → α)
    (i : Fin count) : field (flattenArrays arrays) (size * i.val) size = arrays i := by
  have inside : size * i.val + size ≤ (flattenArrays arrays).length := by
    rw [length_flattenArrays, ← Nat.mul_succ]
    exact Nat.mul_le_mul_left size i.isLt
  apply List.ofFn_injective
  rw [ofFn_field _ inside, slice_flattenArrays]

end Slices

/-- The wires of a byte. -/
def ofByte (byte : UInt8) : List Bool := (List.range 8).map byte.toNat.testBit

/-- The wires of a byte string. -/
def ofBytes (bytes : List UInt8) : List Bool := bytes.flatMap ofByte

/-- The byte on eight wires. -/
def toByte (wires : List Bool) : UInt8 :=
  wires.foldr (fun bit byte => 2 * byte + if bit then 1 else 0) 0

/-- The first `size` bytes on a bundle of wires. -/
def toBytes (size : ℕ) (wires : List Bool) : List UInt8 :=
  (List.range size).map fun i => toByte (slice wires (8 * i) 8)

@[simp]
theorem length_ofByte (byte : UInt8) : (ofByte byte).length = 8 := by
  simp [ofByte]

@[simp]
theorem ofBytes_nil : ofBytes [] = [] := rfl

@[simp]
theorem ofBytes_cons (byte : UInt8) (bytes : List UInt8) :
    ofBytes (byte :: bytes) = ofByte byte ++ ofBytes bytes := rfl

@[simp]
theorem ofBytes_append (front back : List UInt8) :
    ofBytes (front ++ back) = ofBytes front ++ ofBytes back := by
  simp [ofBytes]

@[simp]
theorem length_ofBytes (bytes : List UInt8) : (ofBytes bytes).length = 8 * bytes.length := by
  induction bytes with
  | nil => rfl
  | cons byte bytes ih =>
      simp only [ofBytes_cons, List.length_append, length_ofByte, ih, List.length_cons]
      omega

theorem getD_ofBytes (bytes : List UInt8) (i : ℕ) :
    (ofBytes bytes).getD i false = (bytes.getD (i / 8) 0).toNat.testBit (i % 8) := by
  induction bytes generalizing i with
  | nil => simp
  | cons byte bytes ih =>
      rw [ofBytes_cons]
      rcases Nat.lt_or_ge i 8 with inByte | beyond
      · rw [List.getD_append _ _ _ _ (by simpa using inByte), Nat.div_eq_of_lt inByte,
          Nat.mod_eq_of_lt inByte]
        simp [ofByte, inByte]
      · obtain ⟨k, rfl⟩ := Nat.exists_eq_add_of_le beyond
        have later : (8 + k) / 8 = k / 8 + 1 := by omega
        rw [List.getD_append_right _ _ _ _ (by simp), length_ofByte, Nat.add_sub_cancel_left, ih,
          later, List.getD_cons_succ, Nat.add_mod_left]

theorem ofBytes_replicate_zero (count : ℕ) :
    ofBytes (List.replicate count 0) = List.replicate (8 * count) false := by
  induction count with
  | zero => rfl
  | succ count ih =>
      have zeroByte : ofByte 0 = List.replicate 8 false := by decide
      rw [List.replicate_succ, ofBytes_cons, ih, zeroByte, List.replicate_append_replicate]
      congr 1
      omega

theorem forall_byte {P : UInt8 → Prop} (every : ∀ value : Fin 256, P (UInt8.ofFin value))
    (byte : UInt8) : P byte :=
  every byte.toFin

section Integers

/-- The low `width` bits of an integer, the least significant first. -/
def ofNat (width value : ℕ) : List Bool := (List.range width).map value.testBit

@[simp]
theorem length_ofNat (width value : ℕ) : (ofNat width value).length = width := by
  simp [ofNat]

theorem ofByte_ofNat (value : ℕ) : ofByte (UInt8.ofNat value) = ofNat 8 value := by
  apply List.map_congr_left
  intro i inByte
  have lowBits : (UInt8.ofNat value).toNat = value % 2 ^ 8 := UInt8.toNat_ofNat'
  rw [lowBits, Nat.testBit_mod_two_pow]
  simp [List.mem_range.mp inByte]

/-- The integer on wires, the least significant bit first. -/
def toNat (wires : List Bool) : ℕ :=
  wires.foldr (fun bit value => 2 * value + bit.toNat) 0

theorem testBit_toNat (wires : List Bool) (i : ℕ) :
    (toNat wires).testBit i = wires.getD i false := by
  induction wires generalizing i with
  | nil => simp [toNat]
  | cons bit wires ih =>
      have step : toNat (bit :: wires) = 2 * toNat wires + bit.toNat := rfl
      rw [step]
      cases i with
      | zero => cases bit <;> simp
      | succ i =>
          have half : (2 * toNat wires + bit.toNat) / 2 = toNat wires := by
            have small : bit.toNat < 2 := Bool.toNat_lt bit
            omega
          rw [Nat.testBit_succ, List.getD_cons_succ, half, ih]

theorem toNat_ofNat (width value : ℕ) : toNat (ofNat width value) = value % 2 ^ width := by
  induction width generalizing value with
  | zero => simp [ofNat, toNat, Nat.mod_one]
  | succ width ih =>
      have lowest : ofNat (width + 1) value = value.testBit 0 :: ofNat width (value / 2) := by
        simp [ofNat, List.range_succ_eq_map, Nat.testBit_succ]
      have lowestBit : (value.testBit 0).toNat = value % 2 := by
        rw [Nat.testBit_zero]
        rcases Nat.mod_two_eq_zero_or_one value with even | odd
        · simp [even]
        · simp [odd]
      rw [lowest, toNat, List.foldr_cons, ← toNat, ih, lowestBit, Nat.pow_succ', Nat.mod_mul]
      omega

theorem ofNat_toNat {wires : List Bool} {width : ℕ} (sized : wires.length = width) :
    ofNat width (toNat wires) = wires := by
  apply List.ext_getElem
  · simp [sized]
  · intro i inInteger inWires
    simp [ofNat, testBit_toNat, inWires]

theorem ofNat_add_of_lt {width value : ℕ} (fits : value < 2 ^ width) (more : ℕ) :
    ofNat (width + more) value = ofNat width value ++ List.replicate more false := by
  have beyond : ∀ i, value.testBit (width + i) = false := by
    intro i
    apply Nat.testBit_lt_two_pow
    exact fits.trans_le (Nat.pow_le_pow_right (by omega) (by omega))
  simp only [ofNat, List.range_add, List.map_append, List.map_map, Function.comp_def, beyond]
  simp

theorem toByte_eq_ofNat (wires : List Bool) : toByte wires = UInt8.ofNat (toNat wires) := by
  induction wires with
  | nil => rfl
  | cons bit wires ih =>
      have step : toByte (bit :: wires) = 2 * toByte wires + if bit then 1 else 0 := rfl
      have stepNat : toNat (bit :: wires) = 2 * toNat wires + bit.toNat := rfl
      rw [step, stepNat, ih]
      cases bit <;> simp

end Integers

theorem toByte_ofByte (byte : UInt8) : toByte (ofByte byte) = byte := by
  have wires : ofByte byte = ofNat 8 byte.toNat := rfl
  rw [toByte_eq_ofNat, wires, toNat_ofNat, Nat.mod_eq_of_lt byte.toNat_lt, UInt8.ofNat_toNat]

theorem ofByte_toByte {wires : List Bool} (sized : wires.length = 8) :
    ofByte (toByte wires) = wires := by
  rw [toByte_eq_ofNat, ofByte_ofNat, ofNat_toNat sized]

theorem drop_ofBytes (bytes : List UInt8) (count : ℕ) :
    (ofBytes bytes).drop (8 * count) = ofBytes (bytes.drop count) := by
  induction count generalizing bytes with
  | zero => simp
  | succ count ih =>
      cases bytes with
      | nil => simp
      | cons byte bytes =>
          have pastByte : (8 * (count + 1)) = (ofByte byte).length + 8 * count := by
            simp only [length_ofByte]
            omega
          simp only [ofBytes_cons, List.drop_succ_cons]
          rw [pastByte, List.drop_length_add_append, ih]

theorem take_ofBytes (bytes : List UInt8) (count : ℕ) :
    (ofBytes bytes).take (8 * count) = ofBytes (bytes.take count) := by
  induction count generalizing bytes with
  | zero => simp
  | succ count ih =>
      cases bytes with
      | nil => simp
      | cons byte bytes =>
          have pastByte : (8 * (count + 1)) = (ofByte byte).length + 8 * count := by
            simp only [length_ofByte]
            omega
          simp only [ofBytes_cons, List.take_succ_cons]
          rw [pastByte, List.take_length_add_append, ih]

/-- A slice of wires at byte boundaries carries the slice of the bytes. -/
theorem slice_ofBytes (bytes : List UInt8) (offset size : ℕ) :
    slice (ofBytes bytes) (8 * offset) (8 * size) = ofBytes (slice bytes offset size) := by
  simp only [slice]
  rw [drop_ofBytes, take_ofBytes]

theorem slice_ofBytes_eq {bytes part : List UInt8} {offset size start count : ℕ}
    (found : slice bytes offset size = part) (atOffset : start = 8 * offset)
    (whole : count = 8 * size) : slice (ofBytes bytes) start count = ofBytes part := by
  rw [atOffset, whole, slice_ofBytes, found]

/-- `slice_ofBytes` for offsets and sizes that are written in bits. -/
theorem slice_ofBytes_of_dvd (bytes : List UInt8) {offset size : ℕ} (wholeOffset : 8 ∣ offset)
    (wholeSize : 8 ∣ size) :
    slice (ofBytes bytes) offset size = ofBytes (slice bytes (offset / 8) (size / 8)) := by
  rw [← slice_ofBytes, Nat.mul_div_cancel' wholeOffset, Nat.mul_div_cancel' wholeSize]

theorem slice_ofByte (bytes : List UInt8) {i : ℕ} (inBytes : i < bytes.length) :
    slice (ofBytes bytes) (8 * i) 8 = ofByte bytes[i] := by
  have oneByte : slice bytes i 1 = [bytes[i]] := by
    simp only [slice]
    rw [List.drop_eq_getElem_cons inBytes]
    rfl
  have atBoundary := slice_ofBytes bytes i 1
  rw [oneByte] at atBoundary
  simpa [ofBytes] using atBoundary

theorem toBytes_ofBytes {bytes : List UInt8} {size : ℕ} (fits : bytes.length = size) :
    toBytes size (ofBytes bytes) = bytes := by
  subst fits
  rw [toBytes, ofBytes, map_slice_flatMap length_ofByte]
  simp [toByte_ofByte]

theorem ofBytes_injective : Function.Injective ofBytes := by
  intro left right same
  have sameLength : left.length = right.length := by
    have lengths := congrArg List.length same
    simp only [length_ofBytes] at lengths
    omega
  calc left = toBytes right.length (ofBytes left) := (toBytes_ofBytes sameLength).symm
    _ = toBytes right.length (ofBytes right) := by rw [same]
    _ = right := toBytes_ofBytes rfl

section Gates

/-- An xor gate on each pair of wires. -/
def xorWires (left right : List Bool) : List Bool := List.zipWith xor left right

/-- The xor of two byte strings. -/
def xorBytes (left right : List UInt8) : List UInt8 := List.zipWith (· ^^^ ·) left right

theorem ofFn_xor {size : ℕ} (left right : Fin size → UInt8) :
    List.ofFn (fun i => left i ^^^ right i) = xorBytes (List.ofFn left) (List.ofFn right) := by
  apply List.ext_getElem
  · simp [xorBytes]
  · intro i inLeft inBoth
    simp [xorBytes]

theorem length_xorBytes (left right : List UInt8) :
    (xorBytes left right).length = min left.length right.length := by
  simp [xorBytes]

theorem xorWires_ofByte (left right : UInt8) :
    xorWires (ofByte left) (ofByte right) = ofByte (left ^^^ right) := by
  simp [xorWires, ofByte, List.zipWith_map, Nat.testBit_xor]

theorem xorWires_ofBytes (left right : List UInt8) :
    xorWires (ofBytes left) (ofBytes right) = ofBytes (xorBytes left right) := by
  induction left generalizing right with
  | nil => simp [xorWires, xorBytes]
  | cons byte left ih =>
      cases right with
      | nil => simp [xorWires, xorBytes]
      | cons other right =>
          have byteGates := xorWires_ofByte byte other
          have laterGates := ih right
          simp only [xorWires, xorBytes, ofBytes_cons, List.zipWith_cons_cons] at byteGates laterGates ⊢
          rw [List.zipWith_append (by simp), byteGates, laterGates]

theorem xorBytes_cancel {mask bytes : List UInt8} (fits : mask.length = bytes.length) :
    xorBytes (xorBytes mask bytes) mask = bytes := by
  apply List.ext_getElem
  · simp [xorBytes, fits]
  · intro i inMasked inBytes
    simp only [xorBytes, List.getElem_zipWith]
    rw [UInt8.xor_comm, ← UInt8.xor_assoc, UInt8.xor_self, UInt8.zero_xor]

theorem xorBytes_cancel_left {mask bytes : List UInt8} (fits : mask.length = bytes.length) :
    xorBytes mask (xorBytes mask bytes) = bytes := by
  apply List.ext_getElem
  · simp [xorBytes, fits]
  · intro i inMasked inBytes
    simp only [xorBytes, List.getElem_zipWith]
    rw [← UInt8.xor_assoc, UInt8.xor_self, UInt8.zero_xor]

theorem ofFn_field_xor {buffer bytes : List UInt8} {offset size : ℕ} (mask : Fin size → UInt8)
    (inside : offset + size ≤ buffer.length) (fits : bytes.length = size)
    (masked : slice buffer offset size = xorBytes (List.ofFn mask) bytes) :
    List.ofFn (fun i => field buffer offset size i ^^^ mask i) = bytes := by
  rw [ofFn_xor, ofFn_field _ inside, masked]
  apply xorBytes_cancel
  rw [List.length_ofFn, fits]

end Gates

section Order

/-- The wires of every byte rewired by `arrange`. -/
def eachByte (arrange : List Bool → List Bool) (wires : List Bool) : List Bool :=
  (List.range (wires.length / 8)).flatMap fun i => arrange (slice wires (8 * i) 8)

theorem eachByte_ofBytes (arrange : List Bool → List Bool) (bytes : List UInt8) :
    eachByte arrange (ofBytes bytes) = bytes.flatMap fun byte => arrange (ofByte byte) := by
  have count : (ofBytes bytes).length / 8 = bytes.length := by
    rw [length_ofBytes]
    omega
  rw [eachByte, count, List.flatMap, ofBytes, map_slice_flatMap length_ofByte, List.flatMap]

/-- Reversing the wires of every byte and then all wires reverses the bytes. -/
theorem reverse_eachByte_reverse (bytes : List UInt8) :
    (eachByte List.reverse (ofBytes bytes)).reverse = ofBytes bytes.reverse := by
  rw [eachByte_ofBytes, List.reverse_flatMap]
  simp only [Function.comp_def, List.reverse_reverse]
  rfl

/-- The byte with its bits in the opposite order. -/
def bitReverse (byte : UInt8) : UInt8 := toByte (ofByte byte).reverse

theorem ofByte_bitReverse (byte : UInt8) : ofByte (bitReverse byte) = (ofByte byte).reverse := by
  apply ofByte_toByte
  simp

theorem testBit_bitReverse (byte : UInt8) {j : ℕ} (inByte : j < 8) :
    (bitReverse byte).toNat.testBit j = byte.toNat.testBit (7 - j) := by
  have wire := congrArg (fun wires => wires[j]?) (ofByte_bitReverse byte)
  simpa [ofByte, inByte, List.getElem?_reverse] using wire

/-- Reversing the wires of every byte reverses the bits of the bytes. -/
theorem eachByte_reverse_ofBytes (bytes : List UInt8) :
    eachByte List.reverse (ofBytes bytes) = ofBytes (bytes.map bitReverse) := by
  rw [eachByte_ofBytes]
  simp [ofBytes, List.flatMap_map, ofByte_bitReverse]

theorem bitReverse_bitReverse (byte : UInt8) : bitReverse (bitReverse byte) = byte := by
  rw [bitReverse, ofByte_bitReverse, List.reverse_reverse, toByte_ofByte]

theorem flatMap_range_eq_ofBytes_flatten {size : ℕ} {piece : ℕ → List Bool}
    {parts : Fin size → List UInt8} (each : ∀ i : Fin size, piece i.val = ofBytes (parts i)) :
    (List.range size).flatMap piece = ofBytes (List.ofFn parts).flatten := by
  simp only [ofBytes, List.flatMap, List.map_flatten, List.flatten_flatten, List.map_ofFn]
  congr 1
  apply List.ext_getElem
  · simp
  · intro i inRange inParts
    simp only [List.length_ofFn] at inParts
    simpa [ofBytes, List.flatMap] using each ⟨i, inParts⟩

theorem flatMap_range_eq_ofBytes {size : ℕ} {piece : ℕ → List Bool} {bytes : Fin size → UInt8}
    (each : ∀ i : Fin size, piece i.val = ofByte (bytes i)) :
    (List.range size).flatMap piece = ofBytes (List.ofFn bytes) := by
  have oneByteParts : (List.ofFn fun i => [bytes i]).flatten = List.ofFn bytes := by
    rw [← List.flatMap_singleton' (List.ofFn bytes), List.flatMap, List.map_ofFn]
    rfl
  rw [← oneByteParts]
  apply flatMap_range_eq_ofBytes_flatten
  intro i
  simp [each]

end Order

section BigEndian

/-- The wires of an integer carry its bytes, the least significant first. -/
theorem ofBytes_reverse_ofNat (width value : ℕ) :
    ofBytes (BigEndian.ofNat width value).reverse = ofNat (8 * width) value := by
  induction width generalizing value with
  | zero => rfl
  | succ width ih =>
      have highBits : ∀ i, (value / 256).testBit i = value.testBit (8 + i) := by
        intro i
        rw [Nat.testBit_div_two_pow (i := i) (x := value) (n := 8), Nat.add_comm]
      simp only [BigEndian.ofNat, List.reverse_append, List.reverse_cons, List.reverse_nil,
        List.nil_append, List.cons_append, ofBytes_cons, ih, ofByte_ofNat]
      simp [ofNat, Nat.mul_succ, Nat.add_comm _ 8, List.range_add, highBits]

/-- With the bits of the bytes reversed, the wires of an integer start with the highest bit. -/
theorem ofBytes_bitReverse_ofNat (width value : ℕ) :
    ofBytes ((BigEndian.ofNat width value).map bitReverse) = (ofNat (8 * width) value).reverse := by
  rw [← ofBytes_reverse_ofNat, ← reverse_eachByte_reverse, List.reverse_reverse,
    eachByte_reverse_ofBytes]

theorem testBit_bigEndian (bytes : List UInt8) {i : ℕ} (inBytes : i < 8 * bytes.length) :
    (BigEndian.toNat bytes).testBit i = (bytes.reverse.getD (i / 8) 0).toNat.testBit (i % 8) := by
  have wires := ofBytes_reverse_ofNat bytes.length (BigEndian.toNat bytes)
  rw [BigEndian.ofNat_toNat] at wires
  rw [← getD_ofBytes, wires]
  simp [ofNat, inBytes]

end BigEndian

end PracticalCrypto.Wires
