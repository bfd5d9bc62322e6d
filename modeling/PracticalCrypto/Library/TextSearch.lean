import Mathlib.Data.List.Infix
import Mathlib.Data.List.TakeWhile
import Mathlib.Data.Nat.Find

/-!
# Searching in texts

The position of the first occurrence of a word in a text, as `std::string::find` returns it.
A search is described in two ways: by the pieces around the occurrence that is found, and by
the parts of a text that it skips because no occurrence begins in them.
-/

namespace PracticalCrypto.TextSearch

variable {α : Type*} {needle text before after rest : List α} {c : α} {position : ℕ}

section Skips

/-- No occurrence begins in the first part of `before ++ rest`. -/
def Skips (needle rest : List α) : List α → Prop
  | [] => True
  | c :: before => ¬needle <+: c :: (before ++ rest) ∧ Skips needle rest before

theorem Skips.append {front : List α} (first : Skips needle (before ++ rest) front)
    (second : Skips needle rest before) : Skips needle rest (front ++ before) := by
  induction front with
  | nil => exact second
  | cons c front ih =>
      rcases first with ⟨here, first⟩
      exact ⟨by simpa using here, ih first⟩

theorem Skips.le_length (skips : Skips needle rest before) {earlier later : List α}
    (same : before ++ rest = earlier ++ needle ++ later) : before.length ≤ earlier.length := by
  induction before generalizing earlier with
  | nil => exact Nat.zero_le _
  | cons c before ih =>
      rcases skips with ⟨here, skips⟩
      cases earlier with
      | nil => exact absurd ⟨later, same.symm⟩ here
      | cons d earlier =>
          simp only [List.cons_append, List.cons.injEq] at same
          exact Nat.succ_le_succ (ih skips same.2)

theorem skips_of_le_length (first : ∀ earlier later, before ++ rest = earlier ++ needle ++ later →
    before.length ≤ earlier.length) : Skips needle rest before := by
  induction before with
  | nil => trivial
  | cons c before ih =>
      constructor
      · rintro ⟨later, same⟩
        simpa using first [] later (by simp [same])
      · apply ih
        intro earlier later same
        simpa using first (c :: earlier) later (by simp [same])

theorem Skips.exists_tail (skips : Skips needle rest before) {earlier later : List α}
    (same : before ++ rest = earlier ++ needle ++ later) :
    ∃ tail, earlier = before ++ tail ∧ rest = tail ++ needle ++ later := by
  have bound := skips.le_length same
  rw [List.append_assoc] at same
  rcases List.append_eq_append_iff.mp same with ⟨tail, isEarlier, isRest⟩ | ⟨tail, rfl, isNeedle⟩
  · exact ⟨tail, isEarlier, by simpa using isRest⟩
  · obtain rfl : tail = [] := by
      simp only [List.length_append] at bound
      exact List.length_eq_zero_iff.mp (by omega)
    exact ⟨[], by simp, by simpa using isNeedle.symm⟩

end Skips

section Infix

/-- A word cannot begin in a text that has none of its letters. -/
theorem infix_append_iff_of_left {word front back : List α} (nonempty : word ≠ [])
    (apart : ∀ c ∈ front, c ∉ word) : word <:+: front ++ back ↔ word <:+: back := by
  induction front with
  | nil => rfl
  | cons c front ih =>
      rw [← ih fun d inside => apart d (by simp [inside]), List.cons_append, List.infix_cons_iff]
      constructor
      · rintro (begins | inside)
        · cases word with
          | nil => exact absurd rfl nonempty
          | cons d word =>
              rcases List.cons_prefix_cons.mp begins with ⟨rfl, _⟩
              exact absurd List.mem_cons_self (apart d List.mem_cons_self)
        · exact inside
      · exact Or.inr

theorem infix_append_iff_of_right {word front back : List α} (nonempty : word ≠ [])
    (apart : ∀ c ∈ back, c ∉ word) : word <:+: front ++ back ↔ word <:+: front := by
  rw [← List.reverse_infix, List.reverse_append, infix_append_iff_of_left, List.reverse_infix]
  · simpa using nonempty
  · simpa using apart

/-- A character can only be at the end of a word, so the word does not go on behind it. -/
theorem infix_of_infix_append_cons {word front back : List α}
    (last : c ∉ word.dropLast) (found : word <:+: front ++ c :: back) :
    word <:+: front ++ [c] ∨ word <:+: back := by
  rw [← List.singleton_append, ← List.append_assoc, List.infix_append_iff] at found
  rcases found with inFront | inBack | ⟨start, after, rfl, isEnd, begins⟩
  · exact Or.inl inFront
  · exact Or.inr inBack
  · rcases List.eq_nil_or_concat' after with rfl | ⟨after, d, rfl⟩
    · exact Or.inl (by simpa using isEnd.isInfix)
    · rcases List.suffix_concat_iff.mp isEnd with rfl | ⟨start, rfl, _⟩
      · exact Or.inr (by simpa using begins.isInfix)
      · rw [← List.append_assoc, List.dropLast_concat] at last
        simp at last

theorem infix_append_cons_iff {word front back : List α} (nonempty : word ≠ [])
    (absent : c ∉ word) : word <:+: front ++ c :: back ↔ word <:+: front ∨ word <:+: back := by
  constructor
  · intro found
    have last : c ∉ word.dropLast := fun inside => absent (List.mem_of_mem_dropLast inside)
    refine (infix_of_infix_append_cons last found).imp_left fun inFront => ?_
    apply (infix_append_iff_of_right nonempty _).mp inFront
    simpa using absent
  · rintro (inFront | inBack)
    · exact inFront.trans (List.prefix_append _ _).isInfix
    · exact inBack.trans ((List.suffix_cons _ _).trans (List.suffix_append _ _)).isInfix

/-- A word without the character that ends a line is a part of the line if it begins there. -/
theorem prefix_of_prefix_append {word line more : List α} (absent : c ∉ word)
    (ends : ∀ d ∈ more.head?, d = c) (begins : word <+: line ++ more) : word <+: line := by
  rcases begins with ⟨after, same⟩
  rcases List.append_eq_append_iff.mp same with ⟨rest, isLine, _⟩ | ⟨excess, isWord, isMore⟩
  · exact ⟨rest, isLine.symm⟩
  · cases excess with
    | nil => simp [isWord]
    | cons d excess =>
        have isEnd : d = c := ends d (by simp [isMore])
        simp [isWord, isEnd] at absent

/-- A word whose first letter does not come again cannot reach into its next occurrence. -/
theorem skips_of_not_isInfix {word : List α} (once : c ∉ word) (absent : ¬c :: word <:+: before)
    (rest : List α) : Skips (c :: word) (c :: word ++ rest) before := by
  induction before with
  | nil => trivial
  | cons d before ih =>
      refine ⟨?_, ih fun inside => absent (List.infix_cons inside)⟩
      intro begins
      rcases List.cons_prefix_cons.mp begins with ⟨rfl, follows⟩
      have inside : word <+: before := by
        apply prefix_of_prefix_append once _ follows
        simp
      exact absent (List.cons_prefix_cons.mpr ⟨rfl, inside⟩).isInfix

theorem skips_of_not_mem (word rest : List α) (absent : c ∉ before) :
    Skips (c :: word) rest before := by
  induction before with
  | nil => trivial
  | cons d before ih =>
      rw [List.mem_cons, not_or] at absent
      constructor
      · rw [List.cons_prefix_cons, not_and]
        exact fun same => absurd same absent.1
      · exact ih absent.2

end Infix

section Find

variable [DecidableEq α]

def find (needle text : List α) : Option ℕ :=
  (text.dropInfix? needle).map fun pieces => pieces.1.length

/-- The search that begins at a position. -/
def findFrom (needle : List α) (start : ℕ) (text : List α) : Option ℕ :=
  (find needle (text.drop start)).map (start + ·)

theorem find_eq_some_iff :
    find needle text = some position ↔
      ∃ before after, text = before ++ needle ++ after ∧ before.length = position ∧
        ∀ earlier later, text = earlier ++ needle ++ later → position ≤ earlier.length := by
  simp only [find, Option.map_eq_some_iff, Prod.exists, List.dropInfix?_eq_some_iff, beq_iff_eq]
  constructor
  · rintro ⟨before, after, ⟨⟨_, isText, rfl⟩, first⟩, rfl⟩
    exact ⟨before, after, isText, rfl, fun earlier later same => first earlier _ later same rfl⟩
  · rintro ⟨before, after, isText, rfl, first⟩
    refine ⟨before, after, ⟨⟨needle, isText, rfl⟩, ?_⟩, rfl⟩
    rintro earlier _ later same rfl
    exact first earlier later same

theorem exists_of_find (found : find needle text = some position) :
    ∃ before after, text = before ++ needle ++ after ∧ before.length = position := by
  rcases find_eq_some_iff.mp found with ⟨before, after, isText, length, _⟩
  exact ⟨before, after, isText, length⟩

theorem find_eq_none_iff : find needle text = none ↔ ¬needle <:+: text := by
  constructor
  · rintro missing ⟨before, after, isText⟩
    -- the shortest text before an occurrence
    have occurs : ∃ length, ∃ before after : List α,
        text = before ++ needle ++ after ∧ before.length = length :=
      ⟨before.length, before, after, isText.symm, rfl⟩
    classical
    rcases Nat.find_spec occurs with ⟨first, afterFirst, isFirst, length⟩
    have found : find needle text = some (Nat.find occurs) := by
      apply find_eq_some_iff.mpr
      refine ⟨first, afterFirst, isFirst, length, ?_⟩
      intro earlier later same
      exact Nat.find_min' occurs ⟨earlier, later, same, rfl⟩
    simp [missing] at found
  · intro absent
    by_contra present
    rcases Option.ne_none_iff_exists'.mp present with ⟨position, found⟩
    rcases exists_of_find found with ⟨before, after, isText, _⟩
    exact absent ⟨before, after, isText.symm⟩

theorem not_infix_take_of_find (nonempty : needle ≠ []) (found : find needle text = some position) :
    ¬needle <:+: text.take position := by
  rcases find_eq_some_iff.mp found with ⟨before, after, rfl, rfl, first⟩
  rw [List.append_assoc, List.take_left]
  rintro ⟨earlier, later, rfl⟩
  have bound := first earlier (later ++ needle ++ after) (by simp)
  have positive := List.length_pos_iff.mpr nonempty
  simp only [List.length_append] at bound
  omega

theorem find_append_self (needle rest : List α) : find needle (needle ++ rest) = some 0 := by
  apply find_eq_some_iff.mpr
  exact ⟨[], rest, rfl, rfl, fun _ _ _ => Nat.zero_le _⟩

theorem Skips.find_append (skips : Skips needle rest before) :
    find needle (before ++ rest) = (find needle rest).map (before.length + ·) := by
  cases found : find needle rest with
  | none =>
      apply find_eq_none_iff.mpr
      rintro ⟨earlier, later, same⟩
      rcases skips.exists_tail same.symm with ⟨tail, _, isRest⟩
      exact find_eq_none_iff.mp found ⟨tail, later, isRest.symm⟩
  | some position =>
      rcases find_eq_some_iff.mp found with ⟨inner, after, isRest, length, first⟩
      apply find_eq_some_iff.mpr
      refine ⟨before ++ inner, after, by simp [isRest], by simp [length], ?_⟩
      intro earlier later same
      rcases skips.exists_tail same with ⟨tail, rfl, isTail⟩
      simpa using first tail later isTail

theorem Skips.find_at (skips : Skips needle (needle ++ rest) before) :
    find needle (before ++ (needle ++ rest)) = some before.length := by
  rw [skips.find_append, find_append_self]
  rfl

theorem Skips.find_none (skips : Skips needle [] before) (nonempty : needle ≠ []) :
    find needle before = none := by
  have absent : find needle ([] : List α) = none := by
    apply find_eq_none_iff.mpr
    simpa using nonempty
  simpa [absent] using skips.find_append

theorem find_singleton_none (absent : c ∉ text) : find [c] text = none := by
  rw [find_eq_none_iff, List.singleton_infix_iff]
  exact absent

theorem find_singleton {front : List α} (absent : c ∉ front) (back : List α) :
    find [c] (front ++ c :: back) = some front.length :=
  (skips_of_not_mem [] (c :: back) absent).find_at

theorem takeWhile_ne_of_not_mem (absent : c ∉ text) : text.takeWhile (· ≠ c) = text :=
  List.takeWhile_eq_self_iff.mpr fun _ inside =>
    decide_eq_true (ne_of_mem_of_not_mem inside absent)

theorem dropWhile_ne_of_not_mem (absent : c ∉ text) : text.dropWhile (· ≠ c) = [] :=
  List.dropWhile_eq_nil_iff.mpr fun _ inside =>
    decide_eq_true (ne_of_mem_of_not_mem inside absent)

theorem takeWhile_ne_append {front : List α} (absent : c ∉ front) (back : List α) :
    (front ++ c :: back).takeWhile (· ≠ c) = front := by
  rw [List.takeWhile_append_of_pos fun _ inside =>
    decide_eq_true (ne_of_mem_of_not_mem inside absent)]
  simp

theorem dropWhile_ne_append_left {front : List α} (absent : c ∉ front) (back : List α) :
    (front ++ back).dropWhile (· ≠ c) = back.dropWhile (· ≠ c) :=
  List.dropWhile_append_of_pos fun _ inside =>
    decide_eq_true (ne_of_mem_of_not_mem inside absent)

theorem dropWhile_ne_append {front : List α} (absent : c ∉ front) (back : List α) :
    (front ++ c :: back).dropWhile (· ≠ c) = c :: back := by
  rw [dropWhile_ne_append_left absent]
  simp

theorem takeWhile_eq_find (c : α) (text : List α) :
    text.takeWhile (· ≠ c) =
      match find [c] text with
      | none => text
      | some position => text.take position := by
  by_cases inside : c ∈ text
  · rcases List.eq_append_cons_of_mem inside with ⟨front, back, rfl, absent⟩
    rw [find_singleton absent, takeWhile_ne_append absent]
    simp
  · rw [find_singleton_none inside, takeWhile_ne_of_not_mem inside]

theorem drop_dropWhile_eq_find (c : α) (text : List α) :
    (if c ∈ text then (text.dropWhile (· ≠ c)).drop 1 else text) =
      match find [c] text with
      | none => text
      | some position => text.drop (position + 1) := by
  by_cases inside : c ∈ text
  · rcases List.eq_append_cons_of_mem inside with ⟨front, back, rfl, absent⟩
    rw [if_pos inside, find_singleton absent, dropWhile_ne_append absent]
    simp
  · rw [if_neg inside, find_singleton_none inside]

end Find

end PracticalCrypto.TextSearch
