import Mathlib.Data.List.Induction
import Mathlib.Data.Nat.Digits.Defs
import Mathlib.Tactic.Ring

/-!
# Big-endian integers in byte strings

The integers of the wire formats are stored most significant byte first.
-/

namespace PracticalCrypto.BigEndian

/-- The integer that a byte string stores. -/
def toNat (bytes : List UInt8) : ℕ :=
  bytes.foldl (fun value byte => value * 256 + byte.toNat) 0

/-- The `width` low bytes of an integer. -/
def ofNat : ℕ → ℕ → List UInt8
  | 0, _ => []
  | width + 1, value => ofNat width (value / 256) ++ [UInt8.ofNat value]

@[simp]
theorem length_ofNat (width value : ℕ) : (ofNat width value).length = width := by
  induction width generalizing value with
  | zero => rfl
  | succ width ih => simp [ofNat, ih]

theorem toNat_append (bytes : List UInt8) (byte : UInt8) :
    toNat (bytes ++ [byte]) = toNat bytes * 256 + byte.toNat := by
  simp [toNat]

theorem toNat_ofNat (width value : ℕ) : toNat (ofNat width value) = value % 256 ^ width := by
  induction width generalizing value with
  | zero => simp [ofNat, toNat, Nat.mod_one]
  | succ width ih =>
      have lowByte : (UInt8.ofNat value).toNat = value % 256 := UInt8.toNat_ofNat'
      rw [ofNat, toNat_append, ih, lowByte, pow_succ, mul_comm (256 ^ width) 256, Nat.mod_mul]
      ring

theorem ofNat_toNat (bytes : List UInt8) : ofNat bytes.length (toNat bytes) = bytes := by
  induction bytes using List.reverseRecOn with
  | nil => rfl
  | append_singleton bytes byte ih =>
      have byteLt : byte.toNat < 256 := byte.toNat_lt
      have front : (toNat bytes * 256 + byte.toNat) / 256 = toNat bytes := by omega
      have last : UInt8.ofNat (toNat bytes * 256 + byte.toNat) = byte := by
        apply UInt8.toNat_inj.mp
        rw [UInt8.toNat_ofNat']
        omega
      rw [toNat_append, List.length_append, List.length_singleton, ofNat, front, last, ih]

theorem toNat_lt (bytes : List UInt8) : toNat bytes < 256 ^ bytes.length := by
  have stored := toNat_ofNat bytes.length (toNat bytes)
  rw [ofNat_toNat] at stored
  rw [stored]
  exact Nat.mod_lt _ (by positivity)

/-- An integer is determined by its bytes. -/
theorem eq_of_bytes_eq {width x y : ℕ} (xLt : x < 256 ^ width) (yLt : y < 256 ^ width)
    (same : ∀ i < width, x / 2 ^ (8 * i) % 256 = y / 2 ^ (8 * i) % 256) : x = y := by
  induction width generalizing x y with
  | zero =>
      rw [pow_zero] at xLt yLt
      omega
  | succ width ih =>
      rw [pow_succ] at xLt yLt
      have higher : x / 256 = y / 256 := by
        apply ih (Nat.div_lt_of_lt_mul (by omega)) (Nat.div_lt_of_lt_mul (by omega))
        intro i inside
        have shifted : 2 ^ (8 * (i + 1)) = 256 * 2 ^ (8 * i) := by ring
        have next := same (i + 1) (by omega)
        rwa [shifted, ← Nat.div_div_eq_div_mul, ← Nat.div_div_eq_div_mul] at next
      have lowest := same 0 (by omega)
      rw [Nat.mul_zero, pow_zero, Nat.div_one, Nat.div_one] at lowest
      omega

end PracticalCrypto.BigEndian
