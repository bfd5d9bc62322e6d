import Mathlib.Data.List.GetD
import PracticalCrypto.Library.InnerPlaintext
import PracticalCrypto.Surf.Prover.Release

/-!
# Which records the release recognises

`surf_is_close_notify` and `surf_is_key_update` step back over the padding of a
record before they look at its type, so they decide exactly what RFC 8446 says.
The selection of application data looks at the last byte instead, which is the
content type only of a record without padding.
-/

namespace PracticalCrypto.Surf.Prover

open InnerPlaintext

section Padding

variable {plaintext : Bytes} {n k : ℕ}

theorem unpaddedLength_of_zeros (zeros : ∀ i < n, plaintext.getD i 0 = 0) :
    unpaddedLength plaintext n = 0 := by
  induction n with
  | zero => rfl
  | succ n ih =>
      rw [unpaddedLength, if_pos (zeros n (Nat.lt_succ_self n))]
      exact ih fun i inRange => zeros i (Nat.lt_succ_of_lt inRange)

theorem unpaddedLength_of_last (nonzero : plaintext.getD k 0 ≠ 0)
    (zeros : ∀ i, k < i → i < n → plaintext.getD i 0 = 0) (inRange : k < n) :
    unpaddedLength plaintext n = k + 1 := by
  induction n with
  | zero => omega
  | succ n ih =>
      rw [unpaddedLength]
      by_cases isLast : k = n
      · subst isLast
        rw [if_neg nonzero]
      · rw [if_pos (zeros n (by omega) (Nat.lt_succ_self n))]
        exact ih (fun i later within => zeros i later (Nat.lt_succ_of_lt within)) (by omega)

variable {content : Bytes} {type : UInt8} {padding : ℕ}

theorem unpaddedLength_encode (nonzero : type ≠ 0) :
    unpaddedLength (encode content type padding) (encode content type padding).length =
      content.length + 1 := by
  refine unpaddedLength_of_last ?_ ?_ ?_
  · simpa [encode] using nonzero
  · intro i later _
    have split : i = content.length + (i - content.length - 1 + 1) := by omega
    rw [encode, split, List.getD_append_right _ _ _ _ (by omega), Nat.add_sub_cancel_left,
      List.getD_cons_succ, List.getD_eq_getElem?_getD]
    exact List.getElem?_getD_replicate_default_eq _ _ _
  · simp [encode]

end Padding

section Recognition

variable {contentType : UInt8} {length : ℕ} {start plaintext : Bytes}

/-- A recognised plaintext is some content of the given shape with its type and padding. -/
theorem surfIs_iff (nonzero : contentType ≠ 0) (short : start.length ≤ length) :
    surfIs contentType length start plaintext = true ↔
      ∃ content padding, plaintext = encode content contentType padding ∧
        content.length = length ∧ content.take start.length = start := by
  rw [surfIs, decide_eq_true_iff]
  rcases eq_replicate_or_encode plaintext with zeros | ⟨content, type, padding, typeNonzero, rfl⟩
  · -- without a content type nothing is recognised, and nothing is an encoding
    have noType : unpaddedLength plaintext plaintext.length = 0 := by
      refine unpaddedLength_of_zeros fun i _ => ?_
      rw [zeros, List.getD_eq_getElem?_getD]
      exact List.getElem?_getD_replicate_default_eq _ _ _
    constructor
    · rintro ⟨positive, _⟩
      exact absurd noType positive
    · rintro ⟨content, padding, encoded, _⟩
      have decoded : decode plaintext = none := by
        rw [zeros]
        exact decode_replicate _
      rw [encoded, decode_encode nonzero] at decoded
      cases decoded
  · rw [unpaddedLength_encode typeNonzero, Nat.add_sub_cancel]
    have typeAt : (encode content type padding).getD content.length 0 = type := by simp [encode]
    rw [typeAt]
    constructor
    · rintro ⟨_, rfl, rfl, starts⟩
      refine ⟨content, padding, rfl, rfl, ?_⟩
      rw [encode, List.take_append_of_le_length short] at starts
      exact starts
    · rintro ⟨other, otherPadding, same, rfl, starts⟩
      rcases encode_injective typeNonzero nonzero same with ⟨rfl, rfl⟩
      refine ⟨Nat.succ_ne_zero _, rfl, rfl, ?_⟩
      rw [encode, List.take_append_of_le_length short]
      exact starts

/-- The alert that ends a stream: `close_notify` of warning level, padded or not. -/
def CloseNotify (plaintext : Bytes) : Prop := ∃ padding, plaintext = encode [1, 0] 21 padding

def KeyUpdate (plaintext : Bytes) : Prop :=
  ∃ request padding, plaintext = encode [24, 0, 0, 1, request] 22 padding

theorem surfIsCloseNotify_iff : surfIsCloseNotify plaintext = true ↔ CloseNotify plaintext := by
  rw [surfIsCloseNotify, surfIs_iff (by decide) (by decide)]
  constructor
  · rintro ⟨content, padding, rfl, two, starts⟩
    match content, two with
    | [level, description], _ =>
        cases starts
        exact ⟨padding, rfl⟩
  · rintro ⟨padding, rfl⟩
    exact ⟨[1, 0], padding, rfl, rfl, rfl⟩

theorem surfIsKeyUpdate_iff : surfIsKeyUpdate plaintext = true ↔ KeyUpdate plaintext := by
  rw [surfIsKeyUpdate, surfIs_iff (by decide) (by decide)]
  constructor
  · rintro ⟨content, padding, rfl, five, starts⟩
    match content, five with
    | [a, b, c, d, request], _ =>
        cases starts
        exact ⟨request, padding, rfl⟩
  · rintro ⟨request, padding, rfl⟩
    exact ⟨[24, 0, 0, 1, request], padding, rfl, rfl, rfl⟩

instance : Decidable (CloseNotify plaintext) := decidable_of_iff _ surfIsCloseNotify_iff

instance : Decidable (KeyUpdate plaintext) := decidable_of_iff _ surfIsKeyUpdate_iff

theorem KeyUpdate.not_closeNotify (update : KeyUpdate plaintext) : ¬CloseNotify plaintext := by
  rcases update with ⟨request, padding, rfl⟩
  rintro ⟨otherPadding, same⟩
  have sameType := (encode_injective (by decide) (by decide) same).2
  exact absurd sameType (by decide)

end Recognition

section Selection

variable {plaintext : Bytes}

/-- The content of a record whose type is `application_data`, and nothing of any other. -/
def applicationContent (plaintext : Bytes) : Bytes :=
  match decode plaintext with
  | some (content, 23) => content
  | _ => []

def PaddedApplicationData (plaintext : Bytes) : Prop :=
  ∃ content padding, content ≠ [] ∧ plaintext = encode content 23 (padding + 1)

theorem applicationContent_encode {content : Bytes} {type : UInt8} (padding : ℕ)
    (nonzero : type ≠ 0) :
    applicationContent (encode content type padding) = if type = 23 then content else [] := by
  rw [applicationContent, decode_encode nonzero]
  split
  · rename_i decoded
    cases decoded
    rfl
  · rename_i other
    rw [if_neg]
    rintro rfl
    exact other content rfl

theorem applicationBytes_padded (content : Bytes) (type : UInt8) (padding : ℕ) :
    applicationBytes (encode content type (padding + 1)) = [] := by
  have zeroLast : (encode content type (padding + 1)).getLast? = some 0 := by
    simp [encode, List.replicate_succ', List.getLast?_append, List.getLast?_cons]
  rw [applicationBytes, zeroLast, if_neg (by decide)]

theorem applicationBytes_eq_or_nil (plaintext : Bytes) :
    applicationBytes plaintext = applicationContent plaintext ∨
      applicationBytes plaintext = [] := by
  rcases eq_replicate_or_encode plaintext with zeros | ⟨content, type, padding, nonzero, rfl⟩
  · right
    rw [applicationBytes, if_neg]
    intro last
    have inZeros := List.mem_of_getLast? last
    rw [zeros] at inZeros
    exact absurd (List.eq_of_mem_replicate inZeros) (by decide)
  · rcases padding with _ | padding
    · left
      rw [applicationContent_encode 0 nonzero]
      simp [applicationBytes, encode]
    · exact .inr (applicationBytes_padded content type padding)

theorem applicationBytes_eq_iff :
    applicationBytes plaintext = applicationContent plaintext ↔
      ¬PaddedApplicationData plaintext := by
  constructor
  · rintro same ⟨content, padding, nonempty, rfl⟩
    rw [applicationBytes_padded, applicationContent_encode _ (by decide), if_pos rfl] at same
    exact nonempty same.symm
  · intro unpadded
    rcases applicationBytes_eq_or_nil plaintext with same | nothing
    · exact same
    · rw [nothing]
      rcases eq_replicate_or_encode plaintext with zeros | ⟨content, type, padding, nonzero, rfl⟩
      · rw [zeros, applicationContent, decode_replicate]
      · rw [applicationContent_encode padding nonzero]
        split
        · rename_i isData
          subst isData
          rcases padding with _ | padding
          · simpa [applicationBytes, encode] using nothing.symm
          · by_contra nonempty
            exact unpadded ⟨content, padding, fun isEmpty => nonempty isEmpty.symm, rfl⟩
        · rfl

theorem length_flatMap_le {α β : Type} {whole part : α → List β} {items : List α}
    (parts : ∀ item ∈ items, part item = whole item ∨ part item = []) :
    (items.flatMap part).length ≤ (items.flatMap whole).length := by
  induction items with
  | nil => exact Nat.le_refl _
  | cons item later ih =>
      have rest := ih fun other member => parts other (List.mem_cons_of_mem _ member)
      have first : (part item).length ≤ (whole item).length := by
        rcases parts item List.mem_cons_self with same | nothing
        · rw [same]
        · rw [nothing]
          exact Nat.zero_le _
      rw [List.flatMap_cons, List.flatMap_cons, List.length_append, List.length_append]
      exact Nat.add_le_add first rest

/-- Concatenations of parts that agree or are empty are equal only part by part. -/
theorem flatMap_eq_iff {α β : Type} {whole part : α → List β} {items : List α}
    (parts : ∀ item ∈ items, part item = whole item ∨ part item = []) :
    items.flatMap part = items.flatMap whole ↔ ∀ item ∈ items, part item = whole item := by
  induction items with
  | nil => simp
  | cons item later ih =>
      have partsLater := fun other member => parts other (List.mem_cons_of_mem _ member)
      rw [List.forall_mem_cons, ← ih partsLater, List.flatMap_cons, List.flatMap_cons]
      constructor
      · intro same
        have isSame : part item = whole item := by
          rcases parts item List.mem_cons_self with agree | nothing
          · exact agree
          · -- the rest is not long enough to make up for a missing part
            have lengths := congrArg List.length same
            rw [nothing, List.nil_append, List.length_append] at lengths
            have bound := length_flatMap_le partsLater
            rw [nothing, List.length_eq_zero_iff.mp (by omega : (whole item).length = 0)]
        rw [isSame] at same
        exact ⟨isSame, List.append_cancel_left same⟩
      · rintro ⟨first, rest⟩
        rw [first, rest]

end Selection

end PracticalCrypto.Surf.Prover
