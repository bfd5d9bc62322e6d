import PracticalCrypto.Surf.Circuit.KeySchedule

/-!
# The hash, HMAC and HKDF circuits

The functions `sha256`, `hmac`, `hkdf_extract` and `hkdf_expand` of
`surf-impl/src/2pc/CircuitSynthesis.cpp`, as the values that they put on the wires. The
circuit of the compression function is loaded from a file and is a parameter here;
`Compresses` is its wire convention. It reads a block with the most significant bit of
every word first, and reads and writes the chaining words with the least significant bit
first.

All other circuits read byte strings with the least significant bit of every byte first.
`sha256_internal` changes the order of the bits on the way into the compression function
and the order of the bytes on the way out of it.

The assertions of the source are hypotheses of the lemmas: `padding_internal` takes at
most 8191 bits, and `hmac_internal` keys of at most 512. The last section puts them into
the functions. The inner hash of an HMAC has 512 bits more than the message, so the limit
of 8191 bits is one of 7679 for what is authenticated.
-/

namespace PracticalCrypto.Surf.Hashing

open Wires

section Circuits

/-- `arr_to_block`. -/
def arrToBlock (width : ℕ) (entries : List ℕ) : List Bool := entries.flatMap (ofNat width)

/-- `change_endian_four`, for one word. -/
def swapBytes (word : List Bool) : List Bool :=
  slice word 24 8 ++ slice word 16 8 ++ slice word 8 8 ++ slice word 0 8

def changeEndianFour (input : List Bool) : List Bool :=
  (List.range 8).flatMap fun i => swapBytes (slice input (32 * i) 32)

def getK (len : ℕ) : ℕ := (512 - (len + 1 + 64) % 512) % 512

def getPaddedLen (len : ℕ) : ℕ := len + 1 + getK len + 64

/-- `padding_internal`. The length is written into the last 16 bits only. -/
def padding (input : List Bool) : List Bool :=
  input ++ true :: List.replicate (getK input.length + 48) false ++
    (List.range 16).map fun i => input.length.testBit (16 - 1 - i)

def produceDigestBits : List Bool :=
  arrToBlock 32 [0x6a09e667, 0xbb67ae85, 0x3c6ef372, 0xa54ff53a, 0x510e527f, 0x9b05688c,
    0x1f83d9ab, 0x5be0cd19]

/-- `input_key_xor`. -/
def inputKeyXor (output key : List Bool) : List Bool :=
  xorWires (output.take key.length) key ++ output.drop key.length

variable (circuit : List Bool → List Bool)

def sha256Internal (input : List Bool) : List Bool :=
  let paddedInput := padding (eachByte List.reverse input)
  let numBlocks := getPaddedLen input.length / 512
  changeEndianFour ((List.range numBlocks).foldl
    (fun digestBits b => circuit (slice paddedInput (512 * b) 512 ++ digestBits))
    produceDigestBits)

def hmacInternal (key data : List Bool) : List Bool :=
  let inputToHashFunction := inputKeyXor (arrToBlock 8 (List.replicate 64 0x36)) key ++ data
  let secondInput := inputKeyXor (arrToBlock 8 (List.replicate 64 0x5c)) key ++
    sha256Internal circuit inputToHashFunction
  sha256Internal circuit secondInput

def hkdfExtractInternal (salt ikm : List Bool) : List Bool :=
  if salt.length = 0 then hmacInternal circuit (List.replicate 256 false) ikm
  else hmacInternal circuit salt ikm

/-- The loop of `hkdf_expand_internal`, for `more` blocks from block `i` on. -/
def expandLoop (key info : List Bool) (outputByteLen : ℕ) : ℕ → ℕ → List Bool → List Bool
  | 0, _, _ => []
  | more + 1, i, lastT =>
      let curT := hmacInternal circuit key (lastT ++ info ++ ofNat 8 i)
      -- the copy returns at the first index that is not in the output
      let copied := curT.take (outputByteLen * 8 - (i - 1) * 256)
      if copied.length < 256 then copied
      else copied ++ expandLoop key info outputByteLen more (i + 1) curT

def hkdfExpandInternal (key info : List Bool) (outputByteLen : ℕ) : List Bool :=
  let n := (outputByteLen + 31) / 32
  let curT := hmacInternal circuit key (info ++ true :: List.replicate 7 false)
  let copied := if 32 ≤ outputByteLen then curT else curT.take (8 * outputByteLen)
  if outputByteLen < 32 ∨ n = 1 then copied
  else copied ++ expandLoop circuit key info outputByteLen (n - 1) 2 curT

/-- The circuits of HKDF over a circuit of the compression function. -/
def hkdfWires : HkdfWires where
  extract := hkdfExtractInternal circuit
  expand := hkdfExpandInternal circuit

end Circuits

section Compression

/-- The wires of a block, the most significant bit of every word first. -/
def blockWires (block : List UInt32) : List Bool :=
  block.flatMap fun word => (ofNat 32 word.toNat).reverse

/-- The wires of the chaining words, the least significant bit of every word first. -/
def chainWires (chain : Hkdf.Chain) : List Bool :=
  chain.words.flatMap fun word => ofNat 32 word.toNat

/-- The circuit computes the compression function of SHA-256. -/
def Compresses (circuit : List Bool → List Bool) : Prop :=
  ∀ (chain : Hkdf.Chain) (block : List UInt32), block.length = 16 →
    circuit (blockWires block ++ chainWires chain) = chainWires (Hkdf.compress chain block)

end Compression

section Order

theorem produceDigestBits_eq : produceDigestBits = chainWires Hkdf.initialChain := rfl

theorem swapBytes_ofNat (value : ℕ) :
    swapBytes (ofNat 32 value) = ofBytes (BigEndian.ofNat 4 value) := by
  have bytes : ∃ a b c d, BigEndian.ofNat 4 value = [a, b, c, d] := ⟨_, _, _, _, rfl⟩
  rcases bytes with ⟨a, b, c, d, bytes⟩
  have wires := ofBytes_reverse_ofNat 4 value
  rw [bytes] at wires ⊢
  rw [← wires, swapBytes]
  simp (disch := decide) only [slice_ofBytes_of_dvd]
  simp [slice]

theorem changeEndianFour_chainWires (chain : Hkdf.Chain) :
    changeEndianFour (chainWires chain) = ofBytes chain.bytes := by
  have words := map_slice_flatMap (fun word : UInt32 => length_ofNat 32 word.toNat) chain.words
    swapBytes
  have bytes : chain.bytes = chain.words.flatMap fun word => BigEndian.ofNat 4 word.toNat := rfl
  rw [changeEndianFour, chainWires, List.flatMap, show 8 = chain.words.length from rfl, words,
    bytes]
  simp only [swapBytes_ofNat, ofBytes, List.flatMap_assoc]
  rfl

theorem padding_ofBytes {message : List UInt8} (hashed : 8 * message.length ≤ 8191) :
    padding (ofBytes (message.map bitReverse)) =
      ofBytes ((Hkdf.padded message).map bitReverse) := by
  have zeros : getK (8 * message.length) = 7 + 8 * ((119 - message.length % 64) % 64) := by
    rw [getK]
    omega
  have marker : ofByte (bitReverse 0x80) = true :: List.replicate 7 false := by decide
  have zeroBytes : ∀ count, ofBytes ((List.replicate count 0).map bitReverse) =
      List.replicate (8 * count) false := by
    intro count
    have zeroByte : bitReverse 0 = 0 := by decide
    rw [List.map_replicate, zeroByte, ofBytes_replicate_zero]
  -- the upper 48 bits of the length are the zeros that the code writes
  have lengthBits : ofBytes ((BigEndian.ofNat 8 (8 * message.length)).map bitReverse) =
      List.replicate 48 false ++
        (List.range 16).map fun i => (8 * message.length).testBit (16 - 1 - i) := by
    have short : ofNat (16 + 48) (8 * message.length) = _ := ofNat_add_of_lt (by omega) 48
    rw [ofBytes_bitReverse_ofNat, short, List.reverse_append, List.reverse_replicate]
    rfl
  simp only [padding, Hkdf.padded, length_ofBytes, List.length_map, zeros, List.map_append,
    List.map_cons, ofBytes_append, ofBytes_cons, marker, zeroBytes, lengthBits,
    List.replicate_add, List.append_assoc, List.cons_append]

/-- A block of the padded wires carries the words of the block. -/
theorem slice_ofBytes_bitReverse {message : List UInt8} {b : ℕ}
    (inside : 64 * (b + 1) ≤ message.length) :
    slice (ofBytes (message.map bitReverse)) (512 * b) 512 =
      blockWires (Hkdf.blockWords message b) := by
  have wordWires : ∀ j < 16,
      (ofNat 32 (UInt32.ofNat (BigEndian.toNat (slice message (64 * b + 4 * j) 4))).toNat).reverse =
        ofBytes ((slice message (64 * b + 4 * j) 4).map bitReverse) := by
    intro j inBlock
    have sized : (slice message (64 * b + 4 * j) 4).length = 4 := by
      rw [length_slice]
      omega
    have fits := BigEndian.toNat_lt (slice message (64 * b + 4 * j) 4)
    have stored := BigEndian.ofNat_toNat (slice message (64 * b + 4 * j) 4)
    rw [sized] at fits stored
    rw [UInt32.toNat_ofNat_of_lt' fits, ← stored, ofBytes_bitReverse_ofNat, stored]
  have block : slice message (64 * b) 64 =
      (List.range 16).flatMap fun j => slice message (64 * b + 4 * j) 4 := by
    have parts := take_eq_flatMap_slice (message.drop (64 * b)) 4 16
    simpa [slice, Nat.mul_comm] using parts
  have offset : 512 * b = 8 * (64 * b) := by omega
  calc slice (ofBytes (message.map bitReverse)) (512 * b) 512
      = ofBytes ((slice message (64 * b) 64).map bitReverse) := by
        rw [offset, slice_ofBytes _ _ 64, slice_map]
    _ = (List.range 16).flatMap fun j =>
          ofBytes ((slice message (64 * b + 4 * j) 4).map bitReverse) := by
        simp [block, ofBytes, List.map_flatMap, List.flatMap_assoc]
    _ = (List.range 16).flatMap fun j => (ofNat 32 (UInt32.ofNat
          (BigEndian.toNat (slice message (64 * b + 4 * j) 4))).toNat).reverse := by
        apply List.flatMap_congr
        intro j inBlock
        exact (wordWires j (List.mem_range.mp inBlock)).symm
    _ = blockWires (Hkdf.blockWords message b) := by
        rw [blockWires, Hkdf.blockWords, List.flatMap_map]
        rfl

end Order

section Hash

variable {circuit : List Bool → List Bool}

theorem length_padded (message : List UInt8) :
    8 * (Hkdf.padded message).length = getPaddedLen (8 * message.length) := by
  simp only [Hkdf.padded, List.length_append, List.length_cons, List.length_replicate,
    BigEndian.length_ofNat, getPaddedLen, getK]
  omega

/-- The loop over the blocks: the digest wires carry the chaining words. -/
theorem foldl_circuit (compresses : Compresses circuit) {message : List UInt8} {blocks : List ℕ}
    (inside : ∀ b ∈ blocks, 64 * (b + 1) ≤ message.length) (chain : Hkdf.Chain) :
    blocks.foldl (fun digestBits b =>
        circuit (slice (ofBytes (message.map bitReverse)) (512 * b) 512 ++ digestBits))
        (chainWires chain) =
      chainWires ((blocks.map (Hkdf.blockWords message)).foldl Hkdf.compress chain) := by
  induction blocks generalizing chain with
  | nil => rfl
  | cons b blocks ih =>
      have sixteen : (Hkdf.blockWords message b).length = 16 := by simp [Hkdf.blockWords]
      rw [List.foldl_cons, slice_ofBytes_bitReverse (inside b (by simp)),
        compresses chain _ sixteen, ih fun later member => inside later (by simp [member])]
      rfl

theorem sha256Internal_ofBytes (compresses : Compresses circuit) {message : List UInt8}
    (hashed : 8 * message.length ≤ 8191) :
    sha256Internal circuit (ofBytes message) = ofBytes (Hkdf.sha256 message) := by
  have blocks : getPaddedLen (8 * message.length) / 512 = (Hkdf.padded message).length / 64 := by
    rw [← length_padded]
    omega
  have inside : ∀ b ∈ List.range ((Hkdf.padded message).length / 64),
      64 * (b + 1) ≤ (Hkdf.padded message).length := by
    intro b member
    have inRange := List.mem_range.mp member
    omega
  rw [sha256Internal, eachByte_reverse_ofBytes, padding_ofBytes hashed, length_ofBytes, blocks,
    produceDigestBits_eq]
  simp only [foldl_circuit compresses inside, changeEndianFour_chainWires]
  rfl

theorem inputKeyXor_ofBytes {key : List UInt8} (short : key.length ≤ 64) (pad : ℕ) :
    inputKeyXor (arrToBlock 8 (List.replicate 64 pad)) (ofBytes key) =
      ofBytes ((key ++ List.replicate (64 - key.length) 0).map (· ^^^ UInt8.ofNat pad)) := by
  have padWires : arrToBlock 8 (List.replicate 64 pad) =
      ofBytes (List.replicate 64 (UInt8.ofNat pad)) := by
    simp [arrToBlock, ofBytes, ← ofByte_ofNat]
  have keyPart : ∀ bytes : List UInt8,
      xorBytes (List.replicate bytes.length (UInt8.ofNat pad)) bytes =
        bytes.map (· ^^^ UInt8.ofNat pad) := by
    intro bytes
    induction bytes with
    | nil => rfl
    | cons byte bytes ih =>
        simpa [xorBytes, List.replicate_succ, UInt8.xor_comm byte] using ih
  rw [inputKeyXor, padWires, length_ofBytes, take_ofBytes, drop_ofBytes, xorWires_ofBytes,
    ← ofBytes_append, List.take_replicate, Nat.min_eq_left short, List.drop_replicate, keyPart,
    List.map_append, List.map_replicate, UInt8.zero_xor]

theorem hmacInternal_ofBytes (compresses : Compresses circuit) {key data : List UInt8}
    (short : key.length ≤ 64) (hashed : 512 + 8 * data.length ≤ 8191) :
    hmacInternal circuit (ofBytes key) (ofBytes data) = ofBytes (Hkdf.hmac key data) := by
  have full : ∀ pad : UInt8,
      ((key ++ List.replicate (64 - key.length) 0).map (· ^^^ pad)).length = 64 := by
    intro pad
    simp only [List.length_map, List.length_append, List.length_replicate]
    omega
  rw [hmacInternal, inputKeyXor_ofBytes short, inputKeyXor_ofBytes short, ← ofBytes_append,
    sha256Internal_ofBytes compresses, ← ofBytes_append, sha256Internal_ofBytes compresses,
    Hkdf.hmac, if_neg (by omega)]
  · rfl
  · rw [List.length_append, full, Hkdf.length_sha256]
    omega
  · rw [List.length_append, full]
    omega

theorem hkdfExtractInternal_ofBytes (compresses : Compresses circuit) {salt ikm : List UInt8}
    (short : salt.length ≤ 64) (hashed : 512 + 8 * ikm.length ≤ 8191) :
    hkdfExtractInternal circuit (ofBytes salt) (ofBytes ikm) = ofBytes (Hkdf.extract salt ikm) := by
  rw [hkdfExtractInternal, length_ofBytes]
  split
  next noSalt =>
    -- a missing salt and 32 zero bytes are the same key after it is filled up to a block
    have empty : salt = [] := List.length_eq_zero_iff.mp (by omega)
    have zeroSalt : Hkdf.extract [] ikm = Hkdf.hmac (List.replicate 32 0) ikm := rfl
    rw [empty, zeroSalt, ← hmacInternal_ofBytes compresses (by simp) hashed,
      ofBytes_replicate_zero]
  next =>
    exact hmacInternal_ofBytes compresses short hashed

end Hash

section Expand

variable {circuit : List Bool → List Bool} {key info : List UInt8}

theorem length_expandBlock (key info : List UInt8) (i : ℕ) :
    (Hkdf.expandBlock key info (i + 1)).length = 32 := Hkdf.length_sha256 _

/-- The wires of the next block, from those of the block before. -/
theorem hmacInternal_expandBlock (compresses : Compresses circuit) (short : key.length ≤ 64)
    (hashed : 512 + 256 + 8 * (info.length + 1) ≤ 8191) (i : ℕ) :
    hmacInternal circuit (ofBytes key)
        (ofBytes (Hkdf.expandBlock key info i) ++ ofBytes info ++ ofNat 8 (i + 1)) =
      ofBytes (Hkdf.expandBlock key info (i + 1)) := by
  have counter : ofNat 8 (i + 1) = ofBytes [UInt8.ofNat (i + 1)] := by
    rw [← ofByte_ofNat, ofBytes_cons, ofBytes_nil, List.append_nil]
  have blockLength : (Hkdf.expandBlock key info i).length ≤ 32 := by
    cases i with
    | zero => simp [Hkdf.expandBlock]
    | succ i => exact (length_expandBlock key info i).le
  rw [counter, ← ofBytes_append, ← ofBytes_append, hmacInternal_ofBytes compresses short]
  · rfl
  · simp only [List.length_append, List.length_singleton]
    omega

/-- The loop from block `i + 1` on writes what is missing of the output after `i` blocks. -/
theorem expandLoop_ofBytes (compresses : Compresses circuit) (short : key.length ≤ 64)
    (hashed : 512 + 256 + 8 * (info.length + 1) ≤ 8191) (length more i : ℕ) :
    expandLoop circuit (ofBytes key) (ofBytes info) length more (i + 1)
        (ofBytes (Hkdf.expandBlock key info i)) =
      ofBytes (((List.range more).flatMap fun k => Hkdf.expandBlock key info (i + k + 1)).take
        (length - 32 * i)) := by
  induction more generalizing i with
  | zero => simp [expandLoop]
  | succ more ih =>
      have later : ∀ k, i + (k + 1) + 1 = i + 1 + k + 1 := by omega
      have bits : length * 8 - (i + 1 - 1) * 256 = 8 * (length - 32 * i) := by omega
      have blockLength := length_expandBlock key info i
      simp only [expandLoop, hmacInternal_expandBlock compresses short hashed, bits, take_ofBytes,
        ih, length_ofBytes, List.length_take, blockLength, List.range_succ_eq_map,
        List.flatMap_cons, List.flatMap_map, Nat.succ_eq_add_one, later, Nat.add_zero]
      split
      next last =>
        rw [List.take_append_of_le_length (by omega)]
      next =>
        have missing : length - 32 * i - 32 = length - 32 * (i + 1) := by omega
        have whole : (Hkdf.expandBlock key info (i + 1)).take (length - 32 * i) =
            Hkdf.expandBlock key info (i + 1) := by
          apply List.take_of_length_le
          omega
        rw [List.take_append, blockLength, missing, whole, ofBytes_append]

/-- `hkdf_expand` for keys of up to 64 bytes and outputs of any length. -/
theorem hkdfExpandInternal_ofBytes (compresses : Compresses circuit) (short : key.length ≤ 64)
    (hashed : 512 + 256 + 8 * (info.length + 1) ≤ 8191) (length : ℕ) :
    hkdfExpandInternal circuit (ofBytes key) (ofBytes info) length =
      ofBytes (Hkdf.expand key info length) := by
  have firstBlock : hmacInternal circuit (ofBytes key)
      (ofBytes info ++ true :: List.replicate 7 false) =
        ofBytes (Hkdf.expandBlock key info 1) :=
    hmacInternal_expandBlock compresses short hashed 0
  have blockLength := length_expandBlock key info 0
  rcases Nat.eq_zero_or_pos length with rfl | nonempty
  · simp [hkdfExpandInternal, Hkdf.expand]
  have blocks : ∃ more, (length + 31) / 32 = more + 1 := ⟨(length - 1) / 32, by omega⟩
  rcases blocks with ⟨more, blocks⟩
  -- the block before the loop is an iteration that reads no block
  have unrolled : hkdfExpandInternal circuit (ofBytes key) (ofBytes info) length =
      expandLoop circuit (ofBytes key) (ofBytes info) length (more + 1) 1
        (ofBytes (Hkdf.expandBlock key info 0)) := by
    have bits : length * 8 - (1 - 1) * 256 = 8 * length := by omega
    simp only [hkdfExpandInternal, expandLoop, blocks, firstBlock, bits,
      hmacInternal_expandBlock compresses short hashed 0]
    rcases Nat.lt_or_ge length 32 with inBlock | fullBlock
    · have copied : ((ofBytes (Hkdf.expandBlock key info (0 + 1))).take (8 * length)).length <
          256 := by
        rw [List.length_take]
        omega
      rw [if_pos (Or.inl inBlock), if_neg (by omega), if_pos copied]
    · have copied : (ofBytes (Hkdf.expandBlock key info (0 + 1))).take (8 * length) =
          ofBytes (Hkdf.expandBlock key info (0 + 1)) := by
        apply List.take_of_length_le
        rw [length_ofBytes, blockLength]
        omega
      have goesOn : ¬8 * 32 < 256 := by omega
      rw [copied, length_ofBytes, blockLength, if_neg goesOn, if_pos fullBlock]
      cases more with
      | zero => simp [expandLoop]
      | succ more => simp [Nat.not_lt.mpr fullBlock]
  rw [unrolled, expandLoop_ofBytes compresses short hashed, Hkdf.expand, blocks]
  simp

end Expand

section Spec

variable {circuit : List Bool → List Bool}

theorem hkdfWires_computes (compresses : Compresses circuit) : (hkdfWires circuit).Computes := by
  constructor
  · intro salt ikm isSalt hashed
    exact hkdfExtractInternal_ofBytes compresses (by omega) hashed
  · intro prk info length isKey hashed _
    exact hkdfExpandInternal_ofBytes compresses (by omega) hashed length

/--
HKDF-Expand-Label on wires is that of RFC 8446, for keys of up to one block of the hash and
outputs of any length, the 255 blocks of RFC 5869 among them. With a label and a context that
RFC 8446 allows no hashed input is longer than `padding_internal` accepts.
-/
theorem hkdfExpandLabel_rfc8446 (circuit : List Bool → List Bool) (compresses : Compresses circuit)
    (key : List UInt8) (label : String) (context : List UInt8) (length : ℕ)
    (keyLength : key.length ≤ 64) (labelLength : label.length ≤ 249)
    (contextLength : context.length ≤ 255) :
    (hkdfWires circuit).expandLabel (ofBytes key) label (ofBytes context) length =
      ofBytes (KeySchedule.expandLabel key label context length) := by
  rw [HkdfWires.expandLabel_ofBytes]
  apply hkdfExpandInternal_ofBytes compresses keyLength
  rw [KeySchedule.length_hkdfLabel]
  omega

/-- The chain of eight words. -/
def chainOfWords : List UInt32 → Hkdf.Chain
  | [a, b, c, d, e, f, g, h] => ⟨a, b, c, d, e, f, g, h⟩
  | _ => Hkdf.initialChain

/-- A compression circuit that decodes its words and encodes the result. -/
def compressOnWires (input : List Bool) : List Bool :=
  let block := (List.range 16).map fun j => UInt32.ofNat (toNat (slice input (32 * j) 32).reverse)
  let words := (List.range 8).map fun j => UInt32.ofNat (toNat (slice (input.drop 512) (32 * j) 32))
  chainWires (Hkdf.compress (chainOfWords words) block)

theorem compresses_compressOnWires : Compresses compressOnWires := by
  intro chain block sixteen
  have decoded : ∀ word : UInt32, UInt32.ofNat (toNat (ofNat 32 word.toNat)) = word := by
    intro word
    rw [toNat_ofNat, Nat.mod_eq_of_lt word.toNat_lt, UInt32.ofNat_toNat]
  have blockLength : (blockWires block).length = 512 := by
    simp [blockWires, List.length_flatMap, sixteen]
  have blockWords : ((List.range 16).map fun j => UInt32.ofNat
      (toNat (slice (blockWires block ++ chainWires chain) (32 * j) 32).reverse)) = block := by
    have inBlock : ∀ j ∈ List.range 16, UInt32.ofNat
        (toNat (slice (blockWires block ++ chainWires chain) (32 * j) 32).reverse) =
          UInt32.ofNat (toNat (slice (blockWires block) (32 * j) 32).reverse) := by
      intro j inRange
      have beforeEnd := List.mem_range.mp inRange
      rw [slice_append_left _ _ (by omega)]
    have words := map_slice_flatMap
      (fun word : UInt32 => List.length_reverse.trans (length_ofNat 32 word.toNat)) block
      (fun wires => UInt32.ofNat (toNat wires.reverse))
    rw [List.map_congr_left inBlock, ← sixteen, blockWires, words]
    simp [decoded]
  have chainWords : ((List.range 8).map fun j =>
      UInt32.ofNat (toNat (slice (chainWires chain) (32 * j) 32))) = chain.words := by
    have words := map_slice_flatMap (fun word : UInt32 => length_ofNat 32 word.toNat) chain.words
      (fun wires => UInt32.ofNat (toNat wires))
    simp only [decoded, List.map_id'] at words
    exact words
  simp only [compressOnWires, blockWords, List.drop_left' blockLength, chainWords]
  rfl

/-- An output of 70 bytes, with a partial last block, from a key of 48 bytes. -/
theorem hkdfExpandLabel_rfc8446_three_blocks :
    (hkdfWires compressOnWires).expandLabel (ofBytes (List.replicate 48 7)) "exp master"
        (ofBytes (List.replicate 32 5)) 70 =
      ofBytes (KeySchedule.expandLabel (List.replicate 48 7) "exp master" (List.replicate 32 5)
        70) :=
  hkdfExpandLabel_rfc8446 compressOnWires compresses_compressOnWires _ _ _ 70 (by decide)
    (by decide) (by decide)

end Spec

section Assertions

variable (circuit : List Bool → List Bool)

/-- `sha256` with the assertions on its length; `none` is a synthesis that aborts. -/
def sha256 (input : List Bool) : Option (List Bool) :=
  if input.length % 8 = 0 ∧ input.length ≤ 8191 then some (sha256Internal circuit input) else none

/-- `hmac` with the assertions on its lengths and those of its hashes. -/
def hmac (key data : List Bool) : Option (List Bool) :=
  if key.length ≤ 512 then do
    let inner ← sha256 circuit (inputKeyXor (arrToBlock 8 (List.replicate 64 0x36)) key ++ data)
    sha256 circuit (inputKeyXor (arrToBlock 8 (List.replicate 64 0x5c)) key ++ inner)
  else none

/-- `hkdf_extract` with the assertions of `hmac`. -/
def hkdfExtract (salt ikm : List Bool) : Option (List Bool) :=
  if salt.length = 0 then hmac circuit (List.replicate 256 false) ikm else hmac circuit salt ikm

variable {circuit}

theorem sha256_eq_some {input : List Bool} (wholeBytes : input.length % 8 = 0)
    (short : input.length ≤ 8191) : sha256 circuit input = some (sha256Internal circuit input) :=
  if_pos ⟨wholeBytes, short⟩

theorem length_inputKeyXor {pad : ℕ} {key : List Bool} (short : key.length ≤ 512) :
    (inputKeyXor (arrToBlock 8 (List.replicate 64 pad)) key).length = 512 := by
  have padLength : (arrToBlock 8 (List.replicate 64 pad)).length = 512 := by
    simp [arrToBlock]
  simp only [inputKeyXor, xorWires, List.length_append, List.length_zipWith, List.length_take,
    List.length_drop, padLength]
  omega

theorem length_sha256Internal (compresses : Compresses circuit) {message : List UInt8}
    (short : 8 * message.length ≤ 8191) :
    (sha256Internal circuit (ofBytes message)).length = 256 := by
  rw [sha256Internal_ofBytes compresses short, length_ofBytes, Hkdf.length_sha256]

theorem hmac_eq_none {key data : List Bool} (tooLong : 7679 < data.length) :
    hmac circuit key data = none := by
  rw [hmac]
  split
  next short =>
    have inner : sha256 circuit
        (inputKeyXor (arrToBlock 8 (List.replicate 64 0x36)) key ++ data) = none := by
      apply if_neg
      rw [List.length_append, length_inputKeyXor short]
      omega
    rw [inner]
    rfl
  next => rfl

theorem hmac_ofBytes (compresses : Compresses circuit) {key data : List UInt8}
    (short : key.length ≤ 64) (hashed : 8 * data.length ≤ 7679) :
    hmac circuit (ofBytes key) (ofBytes data) = some (ofBytes (Hkdf.hmac key data)) := by
  have keyShort : (ofBytes key).length ≤ 512 := by
    rw [length_ofBytes]
    omega
  have blockLength : ∀ (pad : ℕ) (wires : List Bool),
      (inputKeyXor (arrToBlock 8 (List.replicate 64 pad)) (ofBytes key) ++ wires).length =
        512 + wires.length := by
    intro pad wires
    rw [List.length_append, length_inputKeyXor keyShort]
  have dataLength := length_ofBytes data
  have inner : sha256 circuit
      (inputKeyXor (arrToBlock 8 (List.replicate 64 0x36)) (ofBytes key) ++ ofBytes data) =
        some (sha256Internal circuit
          (inputKeyXor (arrToBlock 8 (List.replicate 64 0x36)) (ofBytes key) ++ ofBytes data)) := by
    apply sha256_eq_some
    · rw [blockLength]
      omega
    · rw [blockLength]
      omega
  have innerLength : (sha256Internal circuit (inputKeyXor (arrToBlock 8 (List.replicate 64 0x36))
      (ofBytes key) ++ ofBytes data)).length = 256 := by
    rw [inputKeyXor_ofBytes short, ← ofBytes_append, length_sha256Internal compresses]
    simp only [List.length_append, List.length_map, List.length_replicate]
    omega
  have whole : hmacInternal circuit (ofBytes key) (ofBytes data) = ofBytes (Hkdf.hmac key data) :=
    hmacInternal_ofBytes compresses short (by omega)
  rw [hmac, if_pos keyShort, inner, Option.bind_eq_bind, Option.bind_some, ← whole, hmacInternal]
  apply sha256_eq_some
  · rw [blockLength, innerLength]
  · rw [blockLength, innerLength]
    omega

theorem hkdfExtract_ofBytes (compresses : Compresses circuit) {salt ikm : List UInt8}
    (short : salt.length ≤ 64) (hashed : 8 * ikm.length ≤ 7679) :
    hkdfExtract circuit (ofBytes salt) (ofBytes ikm) = some (ofBytes (Hkdf.extract salt ikm)) := by
  rw [hkdfExtract, length_ofBytes]
  split
  next noSalt =>
    have empty : salt = [] := List.length_eq_zero_iff.mp (by omega)
    have zeroSalt : Hkdf.extract [] ikm = Hkdf.hmac (List.replicate 32 0) ikm := rfl
    rw [empty, zeroSalt, ← hmac_ofBytes compresses (by simp) hashed, ofBytes_replicate_zero]
  next => exact hmac_ofBytes compresses short hashed

/--
The hash, HMAC and HKDF-Extract circuits are the standard functions wherever the assertions
let them through: for hashed messages of up to 8191 bits, keys of up to 512 bits, and
authenticated messages that leave room for the block of the key.
-/
theorem hashing_standard (circuit : List Bool → List Bool) (compresses : Compresses circuit) :
    (∀ message : List UInt8, 8 * message.length ≤ 8191 →
      sha256 circuit (ofBytes message) = some (ofBytes (Hkdf.sha256 message))) ∧
    (∀ key message : List UInt8, key.length ≤ 64 →
      hmac circuit (ofBytes key) (ofBytes message) =
          (if 8 * message.length ≤ 7679 then some (ofBytes (Hkdf.hmac key message)) else none) ∧
      hkdfExtract circuit (ofBytes key) (ofBytes message) =
          if 8 * message.length ≤ 7679 then some (ofBytes (Hkdf.extract key message)) else none) := by
  constructor
  · intro message hashed
    have sized := length_ofBytes message
    rw [sha256_eq_some (by omega) (by omega), sha256Internal_ofBytes compresses hashed]
  · intro key message short
    split
    next hashed =>
      exact ⟨hmac_ofBytes compresses short hashed, hkdfExtract_ofBytes compresses short hashed⟩
    next tooLong =>
      have beyond : 7679 < (ofBytes message).length := by
        rw [length_ofBytes]
        omega
      refine ⟨hmac_eq_none beyond, ?_⟩
      rw [hkdfExtract, hmac_eq_none beyond, hmac_eq_none beyond, ite_self]

theorem hashing_standard_three_bytes :
    sha256 compressOnWires (ofBytes [1, 2, 3]) = some (ofBytes (Hkdf.sha256 [1, 2, 3])) :=
  (hashing_standard compressOnWires compresses_compressOnWires).1 [1, 2, 3] (by decide)

/-- A message of 960 bytes has 7680 bits, and its inner hash 8192. -/
theorem hmac_long_message :
    8 * (List.replicate 960 (0 : UInt8)).length ≤ 8191 ∧
      hmac compressOnWires (ofBytes (List.replicate 32 7)) (ofBytes (List.replicate 960 0)) =
        none := by
  constructor
  · rw [List.length_replicate]
    omega
  · apply hmac_eq_none
    rw [length_ofBytes, List.length_replicate]
    omega

end Assertions

end PracticalCrypto.Surf.Hashing
