import PracticalCrypto.Library.Wires

/-!
# Bits and bytes

`Util::convert_bool_to_uint8` packs an array of bits into bytes and `Util::convert_uint8_to_bool`
unpacks bytes (`surf-impl/src/ssl/Util.inl`). The loop that packs a byte shifts after it has added
a bit, and so also after the last one: the first bit is shifted out, and the lowest bit of the byte
is always clear. It puts the first bits on top, whereas the other function starts with the lowest
bit. An array comes back only if it does not show either of these.
-/

namespace PracticalCrypto.Surf

open Wires

section Model

/-- The inner loop of `convert_bool_to_uint8`. -/
def packBits (bits : List Bool) : UInt8 :=
  bits.foldl (fun out bit => (out ||| bit.toUInt8) <<< 1) 0

/-- The outer loop. The size of the array is a multiple of eight. -/
def convertBoolToUint8 (input : List Bool) : List UInt8 :=
  (List.range (input.length / 8)).map fun i => packBits (slice input (8 * i) 8)

/-- The inner loop of `convert_uint8_to_bool`, for a number of rounds. -/
def unpackBits : ℕ → UInt8 → List Bool
  | 0, _ => []
  | rounds + 1, curr => (curr &&& 1 ≠ 0) :: unpackBits rounds (curr >>> 1)

def convertUint8ToBool (input : List UInt8) : List Bool := input.flatMap (unpackBits 8)

end Model

section Bytes

theorem testBit_toUInt8 (bit : Bool) (j : ℕ) :
    bit.toUInt8.toNat.testBit j = (decide (j = 0) && bit) := by
  cases bit with
  | false => simp [Bool.toUInt8]
  | true => cases j <;> simp [Bool.toUInt8, Nat.testBit_succ]

theorem testBit_addBit (out : UInt8) (bit : Bool) (j : ℕ) :
    ((out ||| bit.toUInt8) <<< 1).toNat.testBit j =
      (decide (0 < j ∧ j < 8) && (out.toNat.testBit (j - 1) || (decide (j = 1) && bit))) := by
  rw [UInt8.toNat_shiftLeft, UInt8.toNat_or, Nat.testBit_mod_two_pow, Nat.testBit_shiftLeft,
    Nat.testBit_or, testBit_toUInt8]
  rcases j with _ | j <;> simp

/-- The bit that was added last is the lowest but one, with the earlier ones above it. -/
theorem testBit_packBits (bits : List Bool) (j : ℕ) :
    (packBits bits).toNat.testBit j =
      (decide (0 < j ∧ j < 8) && bits.reverse.getD (j - 1) false) := by
  induction bits using List.reverseRecOn generalizing j with
  | nil => simp [packBits]
  | append_singleton bits bit ih =>
      have step : packBits (bits ++ [bit]) = (packBits bits ||| bit.toUInt8) <<< 1 := by
        simp [packBits]
      rw [step, testBit_addBit, ih, List.reverse_append]
      rcases j with _ | _ | j
      · simp
      · simp
      · by_cases inByte : j + 2 < 8
        · have earlier : j + 1 < 8 := by omega
          simp [inByte, earlier]
        · simp [inByte]

theorem unpackBits_eq (rounds : ℕ) (curr : UInt8) :
    unpackBits rounds curr = (List.range rounds).map curr.toNat.testBit := by
  induction rounds generalizing curr with
  | zero => rfl
  | succ rounds ih =>
      have lowest : decide (curr &&& 1 ≠ 0) = curr.toNat.testBit 0 := by
        have odd : curr &&& 1 ≠ 0 ↔ curr.toNat % 2 = 1 := by
          simp [← UInt8.toNat_inj]
        rw [Nat.testBit_zero]
        exact decide_eq_decide.mpr odd
      have shifted (j : ℕ) : (curr >>> 1).toNat.testBit j = curr.toNat.testBit (j + 1) := by
        rw [UInt8.toNat_shiftRight]
        simp [Nat.testBit_shiftRight, Nat.add_comm]
      rw [unpackBits, ih, lowest, List.range_succ_eq_map, List.map_cons, List.map_map]
      congr 1
      exact List.map_congr_left fun j _ => shifted j

theorem convertUint8ToBool_eq (input : List UInt8) : convertUint8ToBool input = ofBytes input := by
  have each : unpackBits 8 = ofByte := funext (unpackBits_eq 8)
  rw [convertUint8ToBool, each, ofBytes]

end Bytes

section Arrays

variable {input other : List Bool}

theorem length_convertBoolToUint8 (input : List Bool) :
    (convertBoolToUint8 input).length = input.length / 8 := by
  simp [convertBoolToUint8]

/-- What comes back at a position: nothing at the first of a byte, and at the others the bits in
the opposite order. -/
theorem getD_roundTrip {position : ℕ} (inside : position / 8 < input.length / 8) :
    (convertUint8ToBool (convertBoolToUint8 input)).getD position false =
      (decide (0 < position % 8) &&
        input.getD (8 * (position / 8) + (8 - position % 8)) false) := by
  have packed : (convertBoolToUint8 input).getD (position / 8) 0 =
      packBits (slice input (8 * (position / 8)) 8) := by
    simp [convertBoolToUint8, inside]
  have full : (slice input (8 * (position / 8)) 8).length = 8 := by
    rw [length_slice]
    omega
  have inByte : position % 8 < 8 := Nat.mod_lt _ (by decide)
  rw [convertUint8ToBool_eq, getD_ofBytes, packed, testBit_packBits]
  by_cases first : position % 8 = 0
  · simp [first]
  · have mirrored : 8 - 1 - (position % 8 - 1) = 8 - position % 8 := by omega
    have early : position % 8 - 1 < 8 := by omega
    have taken : 8 - position % 8 < 8 := by omega
    simp only [Nat.pos_of_ne_zero first, inByte, and_self, decide_true, Bool.true_and]
    rw [List.getD_eq_getElem?_getD, List.getElem?_reverse (by rw [full]; exact early), full,
      mirrored, slice, List.getElem?_take_of_lt taken, List.getElem?_drop,
      List.getD_eq_getElem?_getD]

theorem length_roundTrip (whole : 8 ∣ input.length) :
    (convertUint8ToBool (convertBoolToUint8 input)).length = input.length := by
  rw [convertUint8ToBool_eq, length_ofBytes, length_convertBoolToUint8]
  exact Nat.mul_div_cancel' whole

/-- Every byte begins with a clear bit, and its other bits read the same backwards. -/
def IsSymmetric (input : List Bool) : Prop :=
  ∀ i < input.length / 8, input.getD (8 * i) false = false ∧
    ∀ j < 8, 0 < j → input.getD (8 * i + j) false = input.getD (8 * i + (8 - j)) false

instance decidableIsSymmetric : DecidablePred IsSymmetric := fun input =>
  inferInstanceAs (Decidable (∀ i < input.length / 8, _ ∧ ∀ j < 8, 0 < j → _))

theorem roundTrip_eq_iff (whole : 8 ∣ input.length) :
    convertUint8ToBool (convertBoolToUint8 input) = input ↔ IsSymmetric input := by
  rw [eq_iff_getD false (length_roundTrip whole)]
  constructor
  · intro same i inArray
    constructor
    · have first := same (8 * i) (by omega)
      rw [getD_roundTrip (by omega), Nat.mul_mod_right] at first
      exact first.symm
    · intro j inByte later
      have quotient : (8 * i + j) / 8 = i := by omega
      have remainder : (8 * i + j) % 8 = j := by omega
      have here := same (8 * i + j) (by omega)
      rw [getD_roundTrip (by omega), quotient, remainder] at here
      simpa [later] using here.symm
  · intro symmetric position inside
    have inArray : position / 8 < input.length / 8 := by omega
    have split : 8 * (position / 8) + position % 8 = position := Nat.div_add_mod position 8
    rcases symmetric (position / 8) inArray with ⟨first, others⟩
    rw [getD_roundTrip inArray]
    by_cases isFirst : position % 8 = 0
    · rw [isFirst, Nat.add_zero] at split
      rw [split] at first
      rw [isFirst, first]
      rfl
    · have later := Nat.pos_of_ne_zero isFirst
      have mirrored := others (position % 8) (Nat.mod_lt _ (by decide)) later
      rw [split] at mirrored
      rw [mirrored]
      simp [later]

/-- The bytes are the same if what comes back is the same. -/
theorem convertBoolToUint8_eq_iff (sameLength : other.length = input.length)
    (whole : 8 ∣ input.length) :
    convertBoolToUint8 other = convertBoolToUint8 input ↔
      ∀ position < input.length, position % 8 ≠ 0 →
        other.getD position false = input.getD position false := by
  have lengths : (convertUint8ToBool (convertBoolToUint8 other)).length =
      (convertUint8ToBool (convertBoolToUint8 input)).length := by
    rw [length_roundTrip whole, length_roundTrip (by rwa [sameLength]), sameLength]
  rw [← ofBytes_injective.eq_iff, ← convertUint8ToBool_eq, ← convertUint8ToBool_eq,
    eq_iff_getD false lengths, length_roundTrip whole]
  -- the position from which a bit comes is in the same byte, and not the first either
  have mirror (position : ℕ) (inside : position < input.length) (later : position % 8 ≠ 0) :
      8 * (position / 8) + (8 - position % 8) < input.length ∧
        (8 * (position / 8) + (8 - position % 8)) % 8 = 8 - position % 8 ∧
        (8 * (position / 8) + (8 - position % 8)) / 8 = position / 8 := by
    omega
  constructor
  · intro same position inside later
    rcases mirror position inside later with ⟨mirrorInside, remainder, quotient⟩
    have here := same _ mirrorInside
    rw [getD_roundTrip (by omega), getD_roundTrip (by omega), quotient, remainder] at here
    have back : 8 * (position / 8) + (8 - (8 - position % 8)) = position := by omega
    have positive : 0 < 8 - position % 8 := by omega
    rw [back] at here
    simpa [positive] using here
  · intro same position inside
    rw [getD_roundTrip (by omega), getD_roundTrip (by omega)]
    by_cases isFirst : position % 8 = 0
    · simp [isFirst]
    · rcases mirror position inside isFirst with ⟨mirrorInside, remainder, _⟩
      rw [same _ mirrorInside (by omega)]

/-- An array comes back exactly if it is symmetric in the sense above, and two arrays have the same
bytes exactly if they differ in the first bits of bytes only. -/
theorem convertBoolToUint8_invertible_iff (input : List Bool) (whole : 8 ∣ input.length) :
    (convertUint8ToBool (convertBoolToUint8 input) = input ↔ IsSymmetric input) ∧
      ∀ other : List Bool, other.length = input.length →
        (convertBoolToUint8 other = convertBoolToUint8 input ↔
          ∀ position < input.length, position % 8 ≠ 0 →
            other.getD position false = input.getD position false) :=
  ⟨roundTrip_eq_iff whole, fun _ sameLength => convertBoolToUint8_eq_iff sameLength whole⟩

end Arrays

section Samples

def symmetricBits : List Bool := [false, true, false, false, true, false, false, true]

theorem symmetricBits_returns :
    8 ∣ symmetricBits.length ∧
      convertUint8ToBool (convertBoolToUint8 symmetricBits) = symmetricBits :=
  ⟨by decide, (convertBoolToUint8_invertible_iff symmetricBits (by decide)).1.mpr (by decide)⟩

/-- The first bit is lost, and so are the differences in it. -/
theorem firstBit_lost :
    convertUint8ToBool (convertBoolToUint8 (true :: List.replicate 7 false)) =
        List.replicate 8 false ∧
      convertBoolToUint8 (true :: List.replicate 7 false) =
        convertBoolToUint8 (List.replicate 8 false) := by
  decide

end Samples

end PracticalCrypto.Surf
