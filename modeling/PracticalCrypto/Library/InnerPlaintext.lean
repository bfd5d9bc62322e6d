import Mathlib.Data.List.TakeWhile
import Mathlib.Data.UInt

/-!
# Content, type and padding

The `TLSInnerPlaintext` of RFC 8446 is the content of a record, one non-zero byte
for the type of the content, and any number of zero bytes. A reader finds the
type as the last byte that is not zero.
-/

namespace PracticalCrypto.InnerPlaintext

def encode (content : List UInt8) (type : UInt8) (padding : ℕ) : List UInt8 :=
  content ++ type :: List.replicate padding 0

/-- The content and the type of a record; there is none if all bytes are zero. -/
def decode (plaintext : List UInt8) : Option (List UInt8 × UInt8) :=
  match plaintext.reverse.dropWhile (· == 0) with
  | [] => none
  | type :: content => some (content.reverse, type)

variable {content other plaintext : List UInt8} {type otherType : UInt8} {padding otherPadding : ℕ}

@[simp]
theorem decode_encode (nonzero : type ≠ 0) :
    decode (encode content type padding) = some (content, type) := by
  have dropped : (encode content type padding).reverse.dropWhile (· == 0) =
      type :: content.reverse := by
    rw [encode, List.reverse_append, List.reverse_cons, List.reverse_replicate, List.append_assoc,
      List.dropWhile_append_of_pos (by simp)]
    simp [nonzero]
  simp only [decode, dropped, List.reverse_reverse]

theorem decode_replicate (length : ℕ) : decode (List.replicate length 0) = none := by
  have dropped : (List.replicate length (0 : UInt8)).reverse.dropWhile (· == 0) = [] := by
    rw [List.dropWhile_eq_nil_iff]
    simp
  rw [decode, dropped]

theorem encode_injective (nonzero : type ≠ 0) (otherNonzero : otherType ≠ 0)
    (same : encode content type padding = encode other otherType otherPadding) :
    content = other ∧ type = otherType := by
  have decoded : decode (encode content type padding) = some (content, type) :=
    decode_encode nonzero
  rw [same, decode_encode otherNonzero] at decoded
  cases decoded
  exact ⟨rfl, rfl⟩

theorem eq_replicate_or_encode (plaintext : List UInt8) :
    plaintext = List.replicate plaintext.length 0 ∨
      ∃ content type padding, type ≠ 0 ∧ plaintext = encode content type padding := by
  induction plaintext using List.reverseRecOn with
  | nil => exact .inl rfl
  | append_singleton earlier last ih =>
      by_cases isZero : last = 0
      · subst isZero
        rcases ih with zeros | ⟨content, type, padding, nonzero, rfl⟩
        · left
          rw [List.length_append, List.length_singleton, List.replicate_succ', ← zeros]
        · refine .inr ⟨content, type, padding + 1, nonzero, ?_⟩
          simp [encode, List.replicate_succ']
      · exact .inr ⟨earlier, last, 0, isZero, rfl⟩

end PracticalCrypto.InnerPlaintext
