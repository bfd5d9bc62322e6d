import PracticalCrypto.Library.Wires

/-!
# AES-128

The block cipher of FIPS 197 with a 128-bit key, on byte strings in the order of
the standard. A round key is computed from the one before it while the rounds
are applied.
-/

namespace PracticalCrypto.Aes

open Wires

/-- The rows of the substitution table, the entry of column zero in the highest byte. -/
def sboxRows : List ℕ :=
  [0x637c777bf26b6fc53001672bfed7ab76, 0xca82c97dfa5947f0add4a2af9ca472c0,
    0xb7fd9326363ff7cc34a5e5f171d83115, 0x04c723c31896059a071280e2eb27b275,
    0x09832c1a1b6e5aa0523bd6b329e32f84, 0x53d100ed20fcb15b6acbbe394a4c58cf,
    0xd0efaafb434d338545f9027f503c9fa8, 0x51a3408f929d38f5bcb6da2110fff3d2,
    0xcd0c13ec5f974417c4a77e3d645d1973, 0x60814fdc222a908846eeb814de5e0bdb,
    0xe0323a0a4906245cc2d3ac629195e479, 0xe7c8376d8dd54ea96c56f4ea657aae08,
    0xba78252e1ca6b4c6e8dd741f4bbd8b8a, 0x703eb5664803f60e613557b986c11d9e,
    0xe1f8981169d98e949b1e87e9ce5528df, 0x8ca1890dbfe6426841992d0fb054bb16]

def subByte (byte : UInt8) : UInt8 :=
  UInt8.ofNat (sboxRows.getD (byte.toNat / 16) 0 >>> (8 * (15 - byte.toNat % 16)))

/-- Multiplication by `x` modulo `x^8 + x^4 + x^3 + x + 1`. -/
def xtime (byte : UInt8) : UInt8 := byte <<< 1 ^^^ if byte < 0x80 then 0 else 0x1b

def shiftRows (state : List UInt8) : List UInt8 :=
  (List.range 16).map fun i => state.getD ((i + 4 * (i % 4)) % 16) 0

def mixColumn (column : List UInt8) : List UInt8 :=
  (List.range 4).map fun i =>
    let entry := fun j => column.getD ((i + j) % 4) 0
    xtime (entry 0) ^^^ (xtime (entry 1) ^^^ entry 1) ^^^ entry 2 ^^^ entry 3

def mixColumns (state : List UInt8) : List UInt8 :=
  (List.range 4).flatMap fun column => mixColumn (slice state (4 * column) 4)

/-- `RotWord`, `SubWord` and the round constant, applied to the last word of a round key. -/
def scheduleCore (rcon : UInt8) (word : List UInt8) : List UInt8 :=
  xorBytes ((word.rotateLeft 1).map subByte) [rcon, 0, 0, 0]

def nextRoundKey (rcon : UInt8) (key : List UInt8) : List UInt8 :=
  let first := xorBytes (slice key 0 4) (scheduleCore rcon (slice key 12 4))
  let second := xorBytes (slice key 4 4) first
  let third := xorBytes (slice key 8 4) second
  first ++ second ++ third ++ xorBytes (slice key 12 4) third

/-- The rounds with the given constants; the last one does not mix the columns. -/
def rounds : List UInt8 → List UInt8 → List UInt8 → List UInt8
  | [], _, state => state
  | [rcon], key, state => xorBytes (shiftRows (state.map subByte)) (nextRoundKey rcon key)
  | rcon :: rcons, key, state =>
      let key := nextRoundKey rcon key
      rounds rcons key (xorBytes (mixColumns (shiftRows (state.map subByte))) key)

def encrypt (key pt : Fin 16 → UInt8) : Fin 16 → UInt8 :=
  let keyBytes := List.ofFn key
  field (rounds [0x01, 0x02, 0x04, 0x08, 0x10, 0x20, 0x40, 0x80, 0x1b, 0x36] keyBytes
    (xorBytes (List.ofFn pt) keyBytes)) 0 16

-- the example vector of FIPS 197, Appendix C.1
example :
    List.ofFn (encrypt (fun i => UInt8.ofNat i.val) (fun i => UInt8.ofNat (0x11 * i.val))) =
      [0x69, 0xc4, 0xe0, 0xd8, 0x6a, 0x7b, 0x04, 0x30,
        0xd8, 0xcd, 0xb7, 0x80, 0x70, 0xb4, 0xc5, 0x5a] := by
  decide +kernel

end PracticalCrypto.Aes
