import PracticalCrypto.Surf.Prover.Keystream

/-!
# Records of the origin, and what opens them

The origin protects its records with AES-128-GCM under a traffic key and IV, and numbers them.
`true_surf_open_record` is the counter mode of GCM, so with the key, the IV and the number of a
record it gives what the origin has encrypted, and it does so whatever the tag is.
-/

namespace PracticalCrypto.Surf

open BlockMap

section Keystream

theorem mapIdx_eq_take_append_drop {α β : Type} (f : ℕ → α → β) (n : ℕ) (items : List α) :
    items.mapIdx f = (items.take n).mapIdx f ++ (items.drop n).mapIdx fun i => f (i + n) := by
  by_cases long : n ≤ items.length
  · nth_rewrite 1 [← List.take_append_drop n items]
    rw [List.mapIdx_append, List.length_take, Nat.min_eq_left long]
  · rw [List.take_of_length_le (by omega), List.drop_of_length_le (by omega), List.mapIdx_nil,
      List.append_nil]

/-- The blocks of a text, each with its own part of the keystream. -/
theorem flatten_zipWith_keystream (keystream : ℕ → Block) (n : ℕ) {text : Bytes}
    (covered : text.length ≤ n * 16) :
    ((List.range n).map fun idx =>
      List.zipWith (· ^^^ ·) ((text.drop (idx * 16)).take 16) (List.ofFn (keystream idx))).flatten =
      text.mapIdx fun i byte => byte ^^^ keystream (i / 16) ⟨i % 16, Nat.mod_lt i (by decide)⟩ := by
  induction n generalizing text keystream with
  | zero =>
      obtain rfl : text = [] := List.eq_nil_of_length_eq_zero (by omega)
      rfl
  | succ n ih =>
      have first : List.zipWith (· ^^^ ·) (text.take 16) (List.ofFn (keystream 0)) =
          (text.take 16).mapIdx fun i byte =>
            byte ^^^ keystream (i / 16) ⟨i % 16, Nat.mod_lt i (by decide)⟩ := by
        apply List.ext_getElem
        · simp
        · intro i inZip inBlock
          have small : i < 16 := by
            simp only [List.length_mapIdx, List.length_take] at inBlock
            omega
          have here : i / 16 = 0 := by omega
          have same : i % 16 = i := Nat.mod_eq_of_lt small
          simp only [List.getElem_zipWith, List.getElem_ofFn, List.getElem_mapIdx, here, same]
      have fewer : (text.drop 16).length ≤ n * 16 := by
        rw [List.length_drop]
        omega
      have rest := ih (fun idx => keystream (idx + 1)) fewer
      have shifted : ∀ i : ℕ, (i + 16) / 16 = i / 16 + 1 ∧ (i + 16) % 16 = i % 16 := by
        omega
      simp only [List.drop_drop] at rest
      rw [mapIdx_eq_take_append_drop _ 16, List.range_succ_eq_map, List.map_cons, List.flatten_cons,
        Nat.zero_mul, List.drop_zero, first, List.map_map]
      simp only [shifted, ← rest]
      congr 3
      funext idx
      rw [Function.comp_apply, show idx.succ * 16 = 16 + idx * 16 by omega]

end Keystream

namespace Prover

variable {env : Environment} {ssl : Ssl} {aes : Block → Block → Block}

/-- What protects the records of one direction. -/
structure RecordKeys where
  key : Block
  iv : Iv
deriving DecidableEq

/-- The ciphertext of TLS 1.3 for a plaintext that ends with its content type and padding. -/
def RecordKeys.ciphertext (aes : Block → Block → Block) (keys : RecordKeys) (seq : UInt64)
    (plaintext : Bytes) : Bytes :=
  (Gcm.encrypt (cipher aes keys.key) (nonce keys.iv seq) plaintext
    (recordHeader plaintext.length)).1

theorem RecordKeys.length_ciphertext (keys : RecordKeys) (seq : UInt64) (plaintext : Bytes) :
    (keys.ciphertext aes seq plaintext).length = plaintext.length :=
  Gcm.length_gctr _ _ plaintext

/-- What arrives of a record: the ciphertext and the tag. -/
def RecordKeys.body (aes : Block → Block → Block) (keys : RecordKeys) (seq : UInt64)
    (plaintext : Bytes) (tag : Block) : Bytes :=
  keys.ciphertext aes seq plaintext ++ List.ofFn tag

theorem ciphertext_capturedRecord (keys : RecordKeys) (seq captured : UInt64) (plaintext : Bytes)
    (tag : Block) :
    (capturedRecord captured (keys.body aes seq plaintext tag)).ciphertext =
      keys.ciphertext aes seq plaintext := by
  simp [capturedRecord, RecordKeys.body]

/-- `true_surf_open_record` is the counter mode of GCM. -/
theorem openRecord_eq (aes : Block → Block → Block) (key iv : Block) {captured : SurfRecord}
    (short : captured.ciphertext.length < 2 ^ 32) :
    openRecord (fun key block => some (aes key block)) key iv captured =
      some (Gcm.gctr (cipher aes key) (Gcm.inc32 (nonce (staticIv iv) captured.seq ++ 1#32))
        captured.ciphertext) := by
  have ctLen : (UInt32.ofNat captured.ciphertext.length).toNat = captured.ciphertext.length := by
    rw [UInt32.toNat_ofNat', Nat.mod_eq_of_lt short]
  have resolved : ∀ idx ∈ List.range (blocksOf captured.ciphertext.length),
      resolve [⟨captured.seq, UInt32.ofNat captured.ciphertext.length⟩] idx =
        some (captured.seq, UInt32.ofNat idx + 2) := by
    intro idx listed
    have inside : idx < blocksOf (UInt32.ofNat captured.ciphertext.length).toNat := by
      rw [ctLen]
      exact List.mem_range.mp listed
    exact resolve_singleton inside
  let chunk (idx : ℕ) : Bytes :=
    List.zipWith (· ^^^ ·) ((captured.ciphertext.drop (idx * 16)).take 16)
      (List.ofFn (aes key (ctrBlock (staticIv iv) captured.seq (UInt32.ofNat idx + 2))))
  rw [openRecord, Handler.mapM_eq_pure (g := chunk), pure_bind,
    flatten_zipWith_keystream _ _ (by rw [blocksOf]; omega), Gcm.gctr]
  · congr 2
    funext i byte
    rw [iterate_counter, cipher_ctrBlock, Gcm.toOctets_ofOctets]
  · intro idx listed
    rw [resolved idx listed]
    rfl

/-- With the key of the origin and the number that it has used, a record opens to its plaintext. -/
theorem opens_body {keys : RecordKeys} {recordIndex : ℕ} {seq : UInt64} {plaintext : Bytes}
    {tag : Block} (cipher : env.aes = fun key block => some (aes key block))
    (isRecord : ssl.surfRecords[recordIndex]? =
      some (capturedRecord seq (keys.body aes seq plaintext tag)))
    (key : ssl.surfFullServerKey = keys.key) (iv : staticIv ssl.serverIv = keys.iv)
    (short : plaintext.length < 2 ^ 32) : ssl.opens env recordIndex = some plaintext := by
  have isCiphertext : (capturedRecord seq (keys.body aes seq plaintext tag)).ciphertext =
      keys.ciphertext aes seq plaintext := ciphertext_capturedRecord keys seq seq plaintext tag
  rw [Ssl.opens, isRecord, cipher, Option.bind_eq_bind, Option.bind_some, openRecord_eq, key, iv,
    isCiphertext]
  · exact congrArg some (Gcm.gctr_gctr _ _ plaintext)
  · rwa [isCiphertext, keys.length_ciphertext]

end Prover

end PracticalCrypto.Surf
