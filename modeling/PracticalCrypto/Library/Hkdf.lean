import Mathlib.Data.UInt
import PracticalCrypto.Library.BigEndian

/-!
# HKDF with SHA-256

SHA-256 (FIPS 180-4), HMAC (RFC 2104) and HKDF (RFC 5869) on byte strings.
-/

namespace PracticalCrypto.Hkdf

section Sha256

def roundConstants : List UInt32 :=
  [0x428a2f98, 0x71374491, 0xb5c0fbcf, 0xe9b5dba5, 0x3956c25b, 0x59f111f1, 0x923f82a4, 0xab1c5ed5,
    0xd807aa98, 0x12835b01, 0x243185be, 0x550c7dc3, 0x72be5d74, 0x80deb1fe, 0x9bdc06a7, 0xc19bf174,
    0xe49b69c1, 0xefbe4786, 0x0fc19dc6, 0x240ca1cc, 0x2de92c6f, 0x4a7484aa, 0x5cb0a9dc, 0x76f988da,
    0x983e5152, 0xa831c66d, 0xb00327c8, 0xbf597fc7, 0xc6e00bf3, 0xd5a79147, 0x06ca6351, 0x14292967,
    0x27b70a85, 0x2e1b2138, 0x4d2c6dfc, 0x53380d13, 0x650a7354, 0x766a0abb, 0x81c2c92e, 0x92722c85,
    0xa2bfe8a1, 0xa81a664b, 0xc24b8b70, 0xc76c51a3, 0xd192e819, 0xd6990624, 0xf40e3585, 0x106aa070,
    0x19a4c116, 0x1e376c08, 0x2748774c, 0x34b0bcb5, 0x391c0cb3, 0x4ed8aa4a, 0x5b9cca4f, 0x682e6ff3,
    0x748f82ee, 0x78a5636f, 0x84c87814, 0x8cc70208, 0x90befffa, 0xa4506ceb, 0xbef9a3f7, 0xc67178f2]

/-- The eight words that a compression changes. -/
structure Chain where
  a : UInt32
  b : UInt32
  c : UInt32
  d : UInt32
  e : UInt32
  f : UInt32
  g : UInt32
  h : UInt32

def initialChain : Chain :=
  ⟨0x6a09e667, 0xbb67ae85, 0x3c6ef372, 0xa54ff53a, 0x510e527f, 0x9b05688c, 0x1f83d9ab, 0x5be0cd19⟩

def rotateRight (word count : UInt32) : UInt32 := word >>> count ||| word <<< (32 - count)

def round (chain : Chain) (constant word : UInt32) : Chain :=
  let sum1 := rotateRight chain.e 6 ^^^ rotateRight chain.e 11 ^^^ rotateRight chain.e 25
  let choice := (chain.e &&& chain.f) ^^^ (~~~chain.e &&& chain.g)
  let temp1 := chain.h + sum1 + choice + constant + word
  let sum0 := rotateRight chain.a 2 ^^^ rotateRight chain.a 13 ^^^ rotateRight chain.a 22
  let majority := (chain.a &&& chain.b) ^^^ (chain.a &&& chain.c) ^^^ (chain.b &&& chain.c)
  ⟨temp1 + (sum0 + majority), chain.a, chain.b, chain.c, chain.d + temp1, chain.e, chain.f, chain.g⟩

/-- One round for each constant; the window holds the next sixteen words of the schedule. -/
def rounds : List UInt32 → List UInt32 → Chain → Chain
  | constant :: later,
      [w0, w1, w2, w3, w4, w5, w6, w7, w8, w9, w10, w11, w12, w13, w14, w15], chain =>
      let sigma0 := rotateRight w1 7 ^^^ rotateRight w1 18 ^^^ (w1 >>> 3)
      let sigma1 := rotateRight w14 17 ^^^ rotateRight w14 19 ^^^ (w14 >>> 10)
      rounds later
        [w1, w2, w3, w4, w5, w6, w7, w8, w9, w10, w11, w12, w13, w14, w15,
          w0 + sigma0 + w9 + sigma1]
        (round chain constant w0)
  | _, _, chain => chain

def compress (chain : Chain) (block : List UInt32) : Chain :=
  let mixed := rounds roundConstants block chain
  ⟨chain.a + mixed.a, chain.b + mixed.b, chain.c + mixed.c, chain.d + mixed.d,
    chain.e + mixed.e, chain.f + mixed.f, chain.g + mixed.g, chain.h + mixed.h⟩

/-- A message with the end marker, zeros and its length in bits: whole 64-byte blocks. -/
def padded (message : List UInt8) : List UInt8 :=
  message ++ 0x80 :: List.replicate ((119 - message.length % 64) % 64) 0 ++
    BigEndian.ofNat 8 (8 * message.length)

/-- The `i`-th block of a padded message as sixteen words. -/
def blockWords (message : List UInt8) (i : ℕ) : List UInt32 :=
  (List.range 16).map fun j =>
    UInt32.ofNat (BigEndian.toNat ((message.drop (64 * i + 4 * j)).take 4))

def Chain.words (chain : Chain) : List UInt32 :=
  [chain.a, chain.b, chain.c, chain.d, chain.e, chain.f, chain.g, chain.h]

def Chain.bytes (chain : Chain) : List UInt8 :=
  [chain.a, chain.b, chain.c, chain.d, chain.e, chain.f, chain.g, chain.h].flatMap fun word =>
    BigEndian.ofNat 4 word.toNat

def sha256 (message : List UInt8) : List UInt8 :=
  let blocks := (List.range ((padded message).length / 64)).map (blockWords (padded message))
  (blocks.foldl compress initialChain).bytes

@[simp]
theorem length_sha256 (message : List UInt8) : (sha256 message).length = 32 := by
  simp [sha256, Chain.bytes]

end Sha256

def hmac (key message : List UInt8) : List UInt8 :=
  let short := if 64 < key.length then sha256 key else key
  let full := short ++ List.replicate (64 - short.length) 0
  sha256 (full.map (· ^^^ 0x5c) ++ sha256 (full.map (· ^^^ 0x36) ++ message))

def extract (salt ikm : List UInt8) : List UInt8 := hmac salt ikm

/-- The block `T(i)` of RFC 5869. -/
def expandBlock (prk info : List UInt8) : ℕ → List UInt8
  | 0 => []
  | i + 1 => hmac prk (expandBlock prk info i ++ info ++ [UInt8.ofNat (i + 1)])

def expand (prk info : List UInt8) (length : ℕ) : List UInt8 :=
  ((List.range ((length + 31) / 32)).flatMap fun i => expandBlock prk info (i + 1)).take length

@[simp]
theorem length_extract (salt ikm : List UInt8) : (extract salt ikm).length = 32 :=
  length_sha256 _

@[simp]
theorem length_expand (prk info : List UInt8) (length : ℕ) :
    (expand prk info length).length = length := by
  have blockLength : ∀ i, (expandBlock prk info (i + 1)).length = 32 := fun i => length_sha256 _
  simp only [expand, List.length_take, List.length_flatMap, blockLength]
  simp
  omega

end PracticalCrypto.Hkdf
