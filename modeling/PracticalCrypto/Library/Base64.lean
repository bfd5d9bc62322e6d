import Mathlib.Data.List.GetD
import Mathlib.Data.List.Nodup

/-!
# Base64

The encoding of RFC 4648, section 4, with padding: three bytes become four digits,
and `=` stands for the digits that a shorter last group does not have. Decoding is
strict, so that the unused bits of a last group must be zero.
-/

namespace PracticalCrypto.Base64

def alphabet : List Char :=
  "ABCDEFGHIJKLMNOPQRSTUVWXYZabcdefghijklmnopqrstuvwxyz0123456789+/".toList

def encodeDigit (digit : ℕ) : Char := alphabet.getD digit '='

def decodeDigit (char : Char) : Option ℕ :=
  if char ∈ alphabet then some (alphabet.idxOf char) else none

def encodeChars : List UInt8 → List Char
  | [] => []
  | [a] => [encodeDigit (a.toNat / 4), encodeDigit (a.toNat % 4 * 16), '=', '=']
  | [a, b] =>
      [encodeDigit (a.toNat / 4), encodeDigit (a.toNat % 4 * 16 + b.toNat / 16),
        encodeDigit (b.toNat % 16 * 4), '=']
  | a :: b :: c :: later =>
      encodeDigit (a.toNat / 4) :: encodeDigit (a.toNat % 4 * 16 + b.toNat / 16) ::
        encodeDigit (b.toNat % 16 * 4 + c.toNat / 64) :: encodeDigit (c.toNat % 64) ::
        encodeChars later

def decodeChars : List Char → Option (List UInt8)
  | [] => some []
  | w :: x :: y :: z :: later => do
      let first ← decodeDigit w
      let second ← decodeDigit x
      let a := UInt8.ofNat (first * 4 + second / 16)
      if later = [] ∧ z = '=' then
        if y = '=' then
          if second % 16 = 0 then some [a] else none
        else do
          let third ← decodeDigit y
          if third % 4 = 0 then some [a, UInt8.ofNat (second % 16 * 16 + third / 4)] else none
      else do
        let third ← decodeDigit y
        let fourth ← decodeDigit z
        let rest ← decodeChars later
        some (a :: UInt8.ofNat (second % 16 * 16 + third / 4) ::
          UInt8.ofNat (third % 4 * 64 + fourth) :: rest)
  | _ => none

def encode (bytes : List UInt8) : String := String.ofList (encodeChars bytes)

def decode (text : String) : Option (List UInt8) := decodeChars text.toList

theorem length_alphabet : alphabet.length = 64 := by decide +kernel

theorem nodup_alphabet : alphabet.Nodup := by decide +kernel

theorem pad_not_mem_alphabet : '=' ∉ alphabet := by decide +kernel

theorem encodeDigit_eq {digit : ℕ} (small : digit < alphabet.length) :
    encodeDigit digit = alphabet[digit] :=
  List.getD_eq_getElem _ _ small

theorem decodeDigit_encodeDigit {digit : ℕ} (small : digit < 64) :
    decodeDigit (encodeDigit digit) = some digit := by
  rw [← length_alphabet] at small
  rw [encodeDigit_eq small, decodeDigit, if_pos (List.getElem_mem small),
    nodup_alphabet.idxOf_getElem]

theorem encodeDigit_ne_pad {digit : ℕ} (small : digit < 64) : encodeDigit digit ≠ '=' := by
  intro isPad
  rw [← length_alphabet] at small
  apply pad_not_mem_alphabet
  rw [← isPad, encodeDigit_eq small]
  exact List.getElem_mem small

theorem ofNat_eq_of_toNat_eq {value : ℕ} {byte : UInt8} (same : value = byte.toNat) :
    UInt8.ofNat value = byte := by
  rw [same, UInt8.ofNat_toNat]

theorem decodeChars_encodeChars (bytes : List UInt8) :
    decodeChars (encodeChars bytes) = some bytes := by
  induction bytes using encodeChars.induct with
  | case1 => rfl
  | case2 a =>
      have aSmall := a.toNat_lt
      have first := decodeDigit_encodeDigit (show a.toNat / 4 < 64 by omega)
      have second := decodeDigit_encodeDigit (show a.toNat % 4 * 16 < 64 by omega)
      have unused : a.toNat % 4 * 16 % 16 = 0 := by omega
      have aBack : UInt8.ofNat (a.toNat / 4 * 4 + a.toNat % 4 * 16 / 16) = a :=
        ofNat_eq_of_toNat_eq (by omega)
      simp only [encodeChars, decodeChars, first, second, Option.bind_eq_bind, Option.bind_some,
        and_self, if_true, unused, aBack]
  | case3 a b =>
      have aSmall := a.toNat_lt
      have bSmall := b.toNat_lt
      have first := decodeDigit_encodeDigit (show a.toNat / 4 < 64 by omega)
      have second := decodeDigit_encodeDigit (show a.toNat % 4 * 16 + b.toNat / 16 < 64 by omega)
      have third := decodeDigit_encodeDigit (show b.toNat % 16 * 4 < 64 by omega)
      have isDigit := encodeDigit_ne_pad (show b.toNat % 16 * 4 < 64 by omega)
      have unused : b.toNat % 16 * 4 % 4 = 0 := by omega
      have aBack : UInt8.ofNat (a.toNat / 4 * 4 + (a.toNat % 4 * 16 + b.toNat / 16) / 16) = a :=
        ofNat_eq_of_toNat_eq (by omega)
      have bBack : UInt8.ofNat ((a.toNat % 4 * 16 + b.toNat / 16) % 16 * 16 +
          b.toNat % 16 * 4 / 4) = b :=
        ofNat_eq_of_toNat_eq (by omega)
      simp only [encodeChars, decodeChars, first, second, third, Option.bind_eq_bind,
        Option.bind_some, and_self, if_true, if_neg isDigit, unused, aBack, bBack]
  | case4 a b c later ih =>
      have aSmall := a.toNat_lt
      have bSmall := b.toNat_lt
      have cSmall := c.toNat_lt
      have first := decodeDigit_encodeDigit (show a.toNat / 4 < 64 by omega)
      have second := decodeDigit_encodeDigit (show a.toNat % 4 * 16 + b.toNat / 16 < 64 by omega)
      have third := decodeDigit_encodeDigit (show b.toNat % 16 * 4 + c.toNat / 64 < 64 by omega)
      have fourth := decodeDigit_encodeDigit (show c.toNat % 64 < 64 by omega)
      have isDigit := encodeDigit_ne_pad (show c.toNat % 64 < 64 by omega)
      have whole : ¬(encodeChars later = [] ∧ encodeDigit (c.toNat % 64) = '=') :=
        fun padded => isDigit padded.2
      have aBack : UInt8.ofNat (a.toNat / 4 * 4 + (a.toNat % 4 * 16 + b.toNat / 16) / 16) = a :=
        ofNat_eq_of_toNat_eq (by omega)
      have bBack : UInt8.ofNat ((a.toNat % 4 * 16 + b.toNat / 16) % 16 * 16 +
          (b.toNat % 16 * 4 + c.toNat / 64) / 4) = b :=
        ofNat_eq_of_toNat_eq (by omega)
      have cBack : UInt8.ofNat ((b.toNat % 16 * 4 + c.toNat / 64) % 4 * 64 + c.toNat % 64) = c :=
        ofNat_eq_of_toNat_eq (by omega)
      simp only [encodeChars, decodeChars, first, second, third, fourth, ih, Option.bind_eq_bind,
        Option.bind_some, if_neg whole, aBack, bBack, cBack]

theorem decode_encode (bytes : List UInt8) : decode (encode bytes) = some bytes := by
  rw [decode, encode, String.toList_ofList, decodeChars_encodeChars]

end PracticalCrypto.Base64
