import PracticalCrypto.Library.TextSearch

/-!
# Replacing words in texts

A text in which the occurrences of some words are marked can be read in two ways: with the words
at the marks, and with other words in their place. The second reading is the simultaneous
substitution. Replacing the words one after the other gives the same text if the words are
separate, that is, if their occurrences never share a letter, and if no word shares a letter with
a text that an earlier replacement has introduced.
-/

namespace PracticalCrypto.Substitution

open TextSearch

variable {α ι : Type*}

section Marking

/-- A letter of a text, or a mark in the place of a word. -/
inductive Piece (α ι : Type*) where
  | letter (c : α)
  | mark (i : ι)

def Piece.text (words : ι → List α) : Piece α ι → List α
  | .letter c => [c]
  | .mark i => words i

/-- The text with the words at the marks. -/
def expand (words : ι → List α) (pieces : List (Piece α ι)) : List α :=
  pieces.flatMap (Piece.text words)

variable {words others : ι → List α} {pieces : List (Piece α ι)} {before : List α} {i j k : ι}

@[simp] theorem expand_nil : expand words [] = [] := rfl

@[simp] theorem expand_letter (c : α) :
    expand words (.letter c :: pieces) = c :: expand words pieces := rfl

@[simp] theorem expand_mark (i : ι) :
    expand words (.mark i :: pieces) = words i ++ expand words pieces := rfl

@[simp] theorem expand_append (front back : List (Piece α ι)) :
    expand words (front ++ back) = expand words front ++ expand words back :=
  List.flatMap_append

theorem infix_expand (marked : .mark i ∈ pieces) : words i <:+: expand words pieces := by
  rcases List.append_of_mem marked with ⟨front, back, rfl⟩
  exact ⟨expand words front, expand words back, by simp⟩

theorem expand_eq_nil_iff (nonempty : ∀ i, words i ≠ []) :
    expand words pieces = [] ↔ pieces = [] := by
  cases pieces with
  | nil => simp
  | cons piece pieces => cases piece <;> simp [nonempty]

theorem expand_eq_of_unmarked (words others : ι → List α) (unmarked : ∀ i, .mark i ∉ pieces) :
    expand words pieces = expand others pieces := by
  induction pieces with
  | nil => rfl
  | cons piece pieces ih =>
      have later := ih fun i marked => unmarked i (by simp [marked])
      cases piece with
      | letter c => simp [later]
      | mark i => exact absurd (by simp) (unmarked i)

/-- There is a mark after the given text. -/
def MarkedAt (words : ι → List α) (pieces : List (Piece α ι)) (i : ι) (before : List α) : Prop :=
  ∃ front back, pieces = front ++ .mark i :: back ∧ expand words front = before

theorem MarkedAt.mem (marked : MarkedAt words pieces i before) : .mark i ∈ pieces := by
  rcases marked with ⟨front, back, rfl, _⟩
  simp

theorem not_markedAt_nil : ¬MarkedAt words [] i before := by
  rintro ⟨front, back, same, _⟩
  simp at same

theorem markedAt_letter_iff {c : α} :
    MarkedAt words (.letter c :: pieces) i before ↔
      ∃ tail, before = c :: tail ∧ MarkedAt words pieces i tail := by
  constructor
  · rintro ⟨front, back, same, rfl⟩
    cases front with
    | nil => simp at same
    | cons piece front =>
        rw [List.cons_append, List.cons.injEq] at same
        rcases same with ⟨rfl, same⟩
        exact ⟨_, rfl, front, back, same, rfl⟩
  · rintro ⟨_, rfl, front, back, rfl, rfl⟩
    exact ⟨.letter c :: front, back, rfl, rfl⟩

theorem markedAt_mark_iff :
    MarkedAt words (.mark j :: pieces) i before ↔
      i = j ∧ before = [] ∨ ∃ tail, before = words j ++ tail ∧ MarkedAt words pieces i tail := by
  constructor
  · rintro ⟨front, back, same, rfl⟩
    cases front with
    | nil =>
        rw [List.nil_append, List.cons.injEq, Piece.mark.injEq] at same
        exact Or.inl ⟨same.1.symm, rfl⟩
    | cons piece front =>
        rw [List.cons_append, List.cons.injEq] at same
        rcases same with ⟨rfl, same⟩
        exact Or.inr ⟨_, rfl, front, back, same, rfl⟩
  · rintro (⟨rfl, rfl⟩ | ⟨_, rfl, front, back, rfl, rfl⟩)
    · exact ⟨[], pieces, rfl, rfl⟩
    · exact ⟨.mark j :: front, back, rfl, rfl⟩

/-- The words at two marks share no letter. -/
theorem MarkedAt.disjoint {front : List α} (first : MarkedAt words pieces i before)
    (second : MarkedAt words pieces j front) :
    i = j ∧ before = front ∨ before.length + (words i).length ≤ front.length ∨
      front.length + (words j).length ≤ before.length := by
  induction pieces generalizing before front with
  | nil => exact absurd first not_markedAt_nil
  | cons piece pieces ih =>
      cases piece with
      | letter c =>
          rcases markedAt_letter_iff.mp first with ⟨tail, rfl, laterFirst⟩
          rcases markedAt_letter_iff.mp second with ⟨rest, rfl, laterSecond⟩
          simp only [List.cons.injEq, true_and, List.length_cons]
          rcases ih laterFirst laterSecond with same | apart | apart
          · exact Or.inl same
          · omega
          · omega
      | mark l =>
          rcases markedAt_mark_iff.mp first with ⟨rfl, rfl⟩ | ⟨tail, rfl, laterFirst⟩ <;>
            rcases markedAt_mark_iff.mp second with ⟨rfl, rfl⟩ | ⟨rest, rfl, laterSecond⟩
          · exact Or.inl ⟨rfl, rfl⟩
          · simp
          · simp
          · simp only [List.append_cancel_left_eq, List.length_append]
            rcases ih laterFirst laterSecond with same | apart | apart
            · exact Or.inl same
            · omega
            · omega

/-- Every occurrence of the word is marked. -/
def Covers (words : ι → List α) (i : ι) (pieces : List (Piece α ι)) : Prop :=
  ∀ before after, expand words pieces = before ++ words i ++ after → MarkedAt words pieces i before

theorem Covers.of_letter {c : α} (covers : Covers words i (.letter c :: pieces)) :
    Covers words i pieces := by
  intro before after same
  rcases markedAt_letter_iff.mp (covers (c :: before) after (by simp [same])) with
    ⟨tail, isTail, marked⟩
  rw [(List.cons.inj isTail).2]
  exact marked

theorem Covers.of_mark (nonempty : words j ≠ []) (covers : Covers words i (.mark j :: pieces)) :
    Covers words i pieces := by
  intro before after same
  rcases markedAt_mark_iff.mp (covers (words j ++ before) after (by simp [same])) with
    ⟨-, empty⟩ | ⟨tail, isTail, marked⟩
  · exact absurd (List.append_eq_nil_iff.mp empty).1 nonempty
  · rw [List.append_cancel_left isTail]
    exact marked

end Marking

section Overlap

/-- In some text, an occurrence of the one word and an occurrence of the other share a letter. -/
def Overlaps (word other : List α) : Prop :=
  ∃ before after front back, before ++ word ++ after = front ++ other ++ back ∧
    front.length < before.length + word.length ∧ before.length < front.length + other.length

/-- Two different occurrences of the word share a letter. -/
def OverlapsItself (word : List α) : Prop :=
  ∃ shift, shift ≠ [] ∧ shift.length < word.length ∧ word <+: shift ++ word

/-- Occurrences of the words never share a letter. -/
structure Separate (words : ι → List α) : Prop where
  apart : ∀ i j, i ≠ j → ¬Overlaps (words i) (words j)
  single : ∀ i, ¬OverlapsItself (words i)

variable {words others : ι → List α} {pieces : List (Piece α ι)} {word other rest : List α}
  {i k : ι}

/-- The one list begins with the other. -/
def Agree (word other : List α) : Prop := word <+: other ∨ other <+: word

theorem Overlaps.symm (overlap : Overlaps word other) : Overlaps other word := by
  rcases overlap with ⟨before, after, front, back, same, starts, ends⟩
  exact ⟨front, back, before, after, same.symm, ends, starts⟩

theorem agree_of_append {first after back : List α} (inside : first.length < word.length)
    (same : word ++ after = first ++ (other ++ back)) : Agree (word.drop first.length) other := by
  have isFirst : first <+: word :=
    List.prefix_of_prefix_length_le ⟨_, same.symm⟩ ⟨after, rfl⟩ inside.le
  rcases isFirst with ⟨rest, rfl⟩
  rw [List.append_assoc, List.append_cancel_left_eq] at same
  rw [List.drop_left]
  exact List.prefix_or_prefix_of_prefix ⟨after, rfl⟩ ⟨back, same.symm⟩

theorem overlaps_of_agree {start : ℕ} (inside : start < word.length)
    (positive : 0 < start + other.length) (agree : Agree (word.drop start) other) :
    Overlaps word other := by
  have whole := List.take_append_drop start word
  have length : (word.take start).length = start := by simp [inside.le]
  rcases agree with ⟨rest, same⟩ | ⟨rest, same⟩
  · refine ⟨[], rest, word.take start, [], ?_, ?_, ?_⟩
    · rw [← same, List.append_nil, ← List.append_assoc, whole, List.nil_append]
    · simpa [length] using inside
    · simpa [length] using positive
  · refine ⟨[], [], word.take start, rest, ?_, ?_, ?_⟩
    · rw [List.append_assoc (word.take start), same, whole, List.nil_append, List.append_nil]
    · simpa [length] using inside
    · simpa [length] using positive

/-- One of the words begins in the other, and they agree from there on. -/
theorem overlaps_iff :
    Overlaps word other ↔
      (∃ start < word.length, 0 < start + other.length ∧ Agree (word.drop start) other) ∨
        ∃ start < other.length, 0 < start + word.length ∧ Agree (other.drop start) word := by
  constructor
  · rintro ⟨before, after, front, back, same, starts, ends⟩
    rw [List.append_assoc, List.append_assoc] at same
    rcases List.append_eq_append_iff.mp same with ⟨first, rfl, isWord⟩ | ⟨first, rfl, isOther⟩
    · simp only [List.length_append] at starts ends
      have inside : first.length < word.length := by omega
      exact Or.inl ⟨first.length, inside, by omega, agree_of_append inside isWord⟩
    · simp only [List.length_append] at starts ends
      have inside : first.length < other.length := by omega
      exact Or.inr ⟨first.length, inside, by omega, agree_of_append inside isOther⟩
  · rintro (⟨start, inside, positive, agree⟩ | ⟨start, inside, positive, agree⟩)
    · exact overlaps_of_agree inside positive agree
    · exact (overlaps_of_agree inside positive agree).symm

theorem overlapsItself_iff :
    OverlapsItself word ↔
      ∃ start < word.length, 0 < start ∧ word <+: word.take start ++ word := by
  constructor
  · rintro ⟨shift, nonempty, shorter, begins⟩
    have isShift : shift <+: word :=
      List.prefix_of_prefix_length_le ⟨word, rfl⟩ begins shorter.le
    refine ⟨shift.length, shorter, List.length_pos_iff.mpr nonempty, ?_⟩
    rwa [← List.prefix_iff_eq_take.mp isShift]
  · rintro ⟨start, inside, positive, begins⟩
    have length : (word.take start).length = start := by simp [inside.le]
    refine ⟨word.take start, ?_, by omega, begins⟩
    rw [← List.length_pos_iff, length]
    exact positive

section Decidable

variable [DecidableEq α]

instance decidableAgree (word other : List α) : Decidable (Agree word other) :=
  inferInstanceAs (Decidable (_ ∨ _))

instance decidableOverlaps (word other : List α) : Decidable (Overlaps word other) :=
  decidable_of_iff _ overlaps_iff.symm

instance decidableOverlapsItself (word : List α) : Decidable (OverlapsItself word) :=
  decidable_of_iff _ overlapsItself_iff.symm

end Decidable

/-- An occurrence in a text that begins with a word begins in that word or after it. -/
theorem occurrence_cases {before after : List α} (same : word ++ rest = before ++ other ++ after) :
    before.length < word.length ∨
      ∃ tail, before = word ++ tail ∧ rest = tail ++ other ++ after := by
  rw [List.append_assoc] at same
  rcases List.append_eq_append_iff.mp same with ⟨tail, isBefore, isRest⟩ | ⟨tail, isWord, isRest⟩
  · exact Or.inr ⟨tail, isBefore, by simp [isRest]⟩
  · cases tail with
    | nil => exact Or.inr ⟨[], by simpa using isWord.symm, by simpa using isRest.symm⟩
    | cons c tail => simp [isWord]

theorem overlaps_of_isInfix (nonempty : word ≠ []) (inside : word <:+: other) :
    Overlaps word other := by
  rcases inside with ⟨before, after, rfl⟩
  have positive := List.length_pos_iff.mpr nonempty
  refine ⟨before, after, [], [], by simp, ?_, ?_⟩
  · simp only [List.length_nil]
    omega
  · simp only [List.length_nil, List.length_append]
    omega

theorem occurrence_of_apart (nonempty : word ≠ []) (apart : ¬Overlaps word other)
    {before after : List α} (same : other ++ rest = before ++ word ++ after) :
    ∃ tail, before = other ++ tail ∧ rest = tail ++ word ++ after := by
  rcases occurrence_cases same with inside | later
  · have positive := List.length_pos_iff.mpr nonempty
    refine absurd ⟨before, after, [], rest, same.symm, ?_, ?_⟩ apart
    · simp only [List.length_nil]
      omega
    · simpa using inside
  · exact later

theorem occurrence_of_single (single : ¬OverlapsItself word) {before after : List α}
    (same : word ++ rest = before ++ word ++ after) :
    before = [] ∨ ∃ tail, before = word ++ tail ∧ rest = tail ++ word ++ after := by
  rcases occurrence_cases same with inside | later
  · left
    by_contra shift
    exact single ⟨before, shift, inside,
      List.prefix_of_prefix_length_le ⟨rest, same⟩ ⟨after, rfl⟩ (by simp)⟩
  · exact Or.inr later

/-- The shortest text in which the two words share a letter. -/
theorem Overlaps.exists_context (overlap : Overlaps word other) (nonempty : word ≠ []) :
    ∃ front back, word <:+: front ++ other ++ back ∧ front <:+: word ∧ back <:+: word ∧
      front.length < word.length ∧ back.length < word.length := by
  have long := List.length_pos_iff.mpr nonempty
  rcases overlaps_iff.mp overlap with ⟨start, inside, positive, agree⟩ |
    ⟨start, inside, positive, agree⟩
  · -- the word begins first
    have whole := List.take_append_drop start word
    have length : (word.take start).length = start := by simp [inside.le]
    rcases agree with ⟨rest, isOther⟩ | ⟨rest, isRest⟩
    · refine ⟨word.take start, [], ⟨[], rest, ?_⟩, (List.take_prefix _ _).isInfix, by simp,
        by omega, long⟩
      rw [← isOther, ← List.append_assoc, whole, List.nil_append, List.append_nil]
    · have isWord : word = word.take start ++ other ++ rest := by
        rw [List.append_assoc, isRest, whole]
      have lengths := congrArg List.length isWord
      simp only [List.length_append] at lengths
      refine ⟨word.take start, rest, ⟨[], [], ?_⟩, (List.take_prefix _ _).isInfix,
        ⟨word.take start ++ other, [], ?_⟩, by omega, by omega⟩
      · simpa using isWord
      · simpa using isWord.symm
  · -- the other word begins first, or both begin together
    have whole := List.take_append_drop start other
    rcases agree with ⟨rest, isWord⟩ | ⟨rest, isRest⟩
    · have lengths := congrArg List.length isWord
      simp only [List.length_append, List.length_drop] at lengths
      refine ⟨[], rest, ⟨other.take start, [], ?_⟩, by simp,
        ⟨other.drop start, [], by simp [isWord]⟩, long, by omega⟩
      rw [← isWord, ← List.append_assoc, whole, List.nil_append, List.append_nil]
    · refine ⟨[], [], ⟨other.take start, rest, ?_⟩, by simp, by simp, long, long⟩
      rw [List.append_assoc, isRest, whole, List.nil_append, List.append_nil]

theorem Separate.not_isInfix (separate : Separate words) (nonempty : ∀ i, words i ≠ [])
    {part : List α} (inside : part <:+: words k) (shorter : part.length < (words k).length)
    (i : ι) : ¬words i <:+: part := by
  intro occurs
  by_cases isWord : i = k
  · subst isWord
    have bound := occurs.length_le
    omega
  · exact separate.apart i k isWord (overlaps_of_isInfix (nonempty i) (occurs.trans inside))

/-- The occurrences of separate words can be marked. -/
theorem Separate.exists_pieces (separate : Separate words) (nonempty : ∀ i, words i ≠ [])
    (text : List α) :
    ∃ pieces, expand words pieces = text ∧ ∀ i, Covers words i pieces := by
  induction length : text.length using Nat.strong_induction_on generalizing text with
  | _ length' ih =>
      subst length
      by_cases begins : ∃ k, words k <+: text
      · rcases begins with ⟨k, rest, rfl⟩
        have shorter : rest.length < (words k ++ rest).length := by
          have positive := List.length_pos_iff.mpr (nonempty k)
          simp only [List.length_append]
          omega
        rcases ih _ shorter rest rfl with ⟨pieces, rfl, covers⟩
        refine ⟨.mark k :: pieces, rfl, ?_⟩
        intro i before after same
        rw [expand_mark] at same
        rw [markedAt_mark_iff]
        have cases : i = k ∧ before = [] ∨ ∃ tail, before = words k ++ tail ∧
            expand words pieces = tail ++ words i ++ after := by
          by_cases isMark : i = k
          · subst isMark
            simpa using occurrence_of_single (separate.single i) same
          · exact Or.inr (occurrence_of_apart (nonempty i) (separate.apart i k isMark) same)
        rcases cases with here | ⟨tail, rfl, isRest⟩
        · exact Or.inl here
        · exact Or.inr ⟨tail, rfl, covers i tail after isRest⟩
      · rw [not_exists] at begins
        cases text with
        | nil =>
            refine ⟨[], rfl, ?_⟩
            intro i before after same
            simp [nonempty i] at same
        | cons c rest =>
            rcases ih _ (Nat.lt_succ_self _) rest rfl with ⟨pieces, rfl, covers⟩
            refine ⟨.letter c :: pieces, rfl, ?_⟩
            intro i before after same
            cases before with
            | nil => exact absurd ⟨after, same.symm⟩ (begins i)
            | cons d before =>
                simp only [expand_letter, List.cons_append, List.cons.injEq] at same
                rw [markedAt_letter_iff, same.1]
                exact ⟨before, rfl, covers i before after same.2⟩

/-- Words are separate if their occurrences can be marked in every text. -/
theorem separate_of_covers (nonempty : ∀ i, words i ≠ [])
    (always : ∀ text, ∃ pieces, expand words pieces = text ∧ ∀ i, Covers words i pieces) :
    Separate words := by
  constructor
  · rintro i j different ⟨before, after, front, back, same, starts, ends⟩
    rcases always (before ++ words i ++ after) with ⟨pieces, isText, covers⟩
    have first := covers i before after isText
    have second := covers j front back (isText.trans same)
    rcases first.disjoint second with ⟨rfl, _⟩ | apart | apart
    · exact different rfl
    · omega
    · omega
  · rintro i ⟨shift, nontrivial, shorter, after, same⟩
    rcases always (shift ++ words i) with ⟨pieces, isText, covers⟩
    have first := covers i [] after (by simp [isText, ← same])
    have second := covers i shift [] (by simp [isText])
    rcases first.disjoint second with ⟨-, empty⟩ | apart | apart
    · exact nontrivial empty.symm
    · simp only [List.length_nil] at apart
      omega
    · have positive := List.length_pos_iff.mpr (nonempty i)
      simp only [List.length_nil] at apart
      omega

end Overlap

section Loop

variable [DecidableEq α] {word new rest text : List α} {rounds : ℕ}

/-- The loop that replaces one occurrence after the other and goes on after the new text. -/
def replaceLoop (word new : List α) : ℕ → List α → List α
  | 0, text => text
  | rounds + 1, text =>
      match find word text with
      | none => text
      | some position =>
          text.take position ++ new ++
            replaceLoop word new rounds (text.drop (position + word.length))

/-- Every round leaves a shorter text, unless the word is empty. -/
def replaceAll (word new text : List α) : List α :=
  if word = [] then text else replaceLoop word new text.length text

theorem replaceLoop_of_not_isInfix (absent : ¬word <:+: text) :
    replaceLoop word new rounds text = text := by
  cases rounds <;> simp [replaceLoop, find_eq_none_iff.mpr absent]

theorem replaceAll_of_not_isInfix (absent : ¬word <:+: text) : replaceAll word new text = text := by
  rw [replaceAll, replaceLoop_of_not_isInfix absent]
  exact ite_self _

theorem replaceLoop_word : replaceLoop word new (rounds + 1) (word ++ rest) =
    new ++ replaceLoop word new rounds rest := by
  simp [replaceLoop, find_append_self]

theorem replaceLoop_skips {before : List α} (skips : Skips word rest before) :
    replaceLoop word new rounds (before ++ rest) = before ++ replaceLoop word new rounds rest := by
  cases rounds with
  | zero => rfl
  | succ rounds =>
      rw [replaceLoop, replaceLoop, skips.find_append]
      cases find word rest with
      | none => rfl
      | some position =>
          simp [List.take_length_add_append, List.drop_length_add_append, Nat.add_assoc]

theorem mem_replaceAll {c : α} (inside : c ∈ text) (absent : c ∉ word) :
    c ∈ replaceAll word new text := by
  have loop (rounds : ℕ) : c ∈ replaceLoop word new rounds text := by
    induction rounds generalizing text with
    | zero => exact inside
    | succ rounds ih =>
        rw [replaceLoop]
        cases found : find word text with
        | none => exact inside
        | some position =>
            rcases exists_of_find found with ⟨before, after, rfl, rfl⟩
            simp only [List.append_assoc, List.take_left, List.drop_length_add_append,
              List.drop_left, List.mem_append, absent, false_or] at inside ⊢
            exact inside.imp_right fun later => Or.inr (ih later)
  rw [replaceAll]
  split
  case isTrue => exact inside
  case isFalse => exact loop _

end Loop

section Replacing

variable {words others : ι → List α} {pieces : List (Piece α ι)} {i k : ι}

/-- A part at the end of a word begins the original text if it begins the current one. -/
theorem prefix_expand_of_apart (same : others k = words k) (nonempty : ∀ i, others i ≠ [])
    (apart : ∀ i, i ≠ k → ¬Overlaps (words k) (others i)) {front part : List α}
    (isPart : words k = front ++ part) (begins : part <+: expand others pieces) :
    part <+: expand words pieces := by
  induction pieces generalizing front part with
  | nil => exact begins
  | cons piece pieces ih =>
      cases part with
      | nil => simp
      | cons d part =>
          cases piece with
          | letter c =>
              rw [expand_letter, List.cons_prefix_cons] at begins ⊢
              have isRest : words k = front ++ [d] ++ part := by simp [isPart]
              exact ⟨begins.1, ih isRest begins.2⟩
          | mark i =>
              rw [expand_mark] at begins ⊢
              by_cases isWord : i = k
              · subst isWord
                rw [same] at begins
                have inside := List.prefix_of_prefix_length_le begins
                  (List.prefix_append (words i) _) (by simp [isPart])
                exact inside.trans (List.prefix_append _ _)
              · -- the part would share its first letter with the text that has been introduced
                rcases begins with ⟨after, isText⟩
                refine absurd ⟨[], after, front, expand others pieces, ?_, ?_, ?_⟩
                  (apart i isWord)
                · simp [isPart, isText]
                · simp [isPart]
                · have positive := List.length_pos_iff.mpr (nonempty i)
                  simp only [List.length_nil]
                  omega

/-- A word that is apart from what has been introduced occurs where it occurred before. -/
theorem Covers.replaced (covers : Covers words k pieces) (single : ¬OverlapsItself (words k))
    (isWord : ∀ i, words i ≠ []) (nonempty : ∀ i, others i ≠ []) (same : others k = words k)
    (apart : ∀ i, i ≠ k → ¬Overlaps (words k) (others i)) : Covers others k pieces := by
  induction pieces with
  | nil =>
      intro before after isText
      simp [nonempty k] at isText
  | cons piece pieces ih =>
      intro before after isText
      cases piece with
      | letter c =>
          cases before with
          | nil =>
              have begins : words k <+: expand words (.letter c :: pieces) := by
                apply prefix_expand_of_apart same nonempty apart (List.nil_append _).symm
                exact ⟨after, by rw [isText, same]; simp⟩
              rcases begins with ⟨rest, isRest⟩
              rcases markedAt_letter_iff.mp (covers [] rest isRest.symm) with ⟨tail, empty, -⟩
              simp at empty
          | cons d before =>
              simp only [expand_letter, List.cons_append, List.cons.injEq] at isText
              rw [markedAt_letter_iff, isText.1]
              exact ⟨before, rfl, ih covers.of_letter before after isText.2⟩
      | mark i =>
          rw [expand_mark] at isText
          rw [markedAt_mark_iff]
          have later := ih (covers.of_mark (isWord i))
          by_cases isMark : k = i
          · subst isMark
            rw [same] at isText
            rcases occurrence_of_single single isText with rfl | ⟨tail, rfl, isRest⟩
            · exact Or.inl ⟨rfl, rfl⟩
            · rw [same]
              exact Or.inr ⟨tail, rfl, later tail after (by rw [isRest, same])⟩
          · rw [same] at isText
            rcases occurrence_of_apart (isWord k) (apart i (Ne.symm isMark)) isText with
              ⟨tail, rfl, isRest⟩
            exact Or.inr ⟨tail, rfl, later tail after (by rw [isRest, same])⟩

/-- A word that shares a letter with what has been introduced occurs in new places. -/
theorem not_overlaps_of_covers (separate : Separate words) (isWord : ∀ i, words i ≠ [])
    (same : others k = words k) (different : i ≠ k)
    (always : ∀ text, ∃ pieces, expand words pieces = text ∧ Covers words i pieces ∧
      Covers others k pieces) : ¬Overlaps (words k) (others i) := by
  intro overlap
  rcases overlap.exists_context (isWord k) with
    ⟨front, back, occurs, frontInside, backInside, frontShorter, backShorter⟩
  rcases always (front ++ words i ++ back) with ⟨pieces, isText, covers, coversOthers⟩
  rcases covers front back isText with ⟨first, last, rfl, rfl⟩
  obtain rfl : expand words last = back := by
    simpa using isText
  -- the only mark is the one that is replaced
  have unmarkedFirst : ∀ l, .mark l ∉ first := by
    intro l marked
    exact separate.not_isInfix isWord frontInside frontShorter l (infix_expand marked)
  have unmarkedLast : ∀ l, .mark l ∉ last := by
    intro l marked
    exact separate.not_isInfix isWord backInside backShorter l (infix_expand marked)
  rw [expand_eq_of_unmarked words others unmarkedFirst,
    expand_eq_of_unmarked words others unmarkedLast] at occurs
  rcases occurs with ⟨before, after, isOccurrence⟩
  have isOther : expand others (first ++ .mark i :: last) = before ++ others k ++ after := by
    rw [same, isOccurrence]
    simp
  have marked := (coversOthers before after isOther).mem
  simp [unmarkedFirst, unmarkedLast, different.symm] at marked

variable [DecidableEq α] [DecidableEq ι]

theorem replaceLoop_expand {new : List α} {rounds : ℕ} (covers : Covers words k pieces)
    (isWord : ∀ i, words i ≠ []) (enough : (expand words pieces).length ≤ rounds) :
    replaceLoop (words k) new rounds (expand words pieces) =
      expand (Function.update words k new) pieces := by
  induction pieces generalizing rounds with
  | nil =>
      apply replaceLoop_of_not_isInfix
      simpa using isWord k
  | cons piece pieces ih =>
      cases piece with
      | letter c =>
          have skips : Skips (words k) (expand words pieces) [c] := by
            refine ⟨?_, trivial⟩
            rintro ⟨after, isText⟩
            rcases markedAt_letter_iff.mp (covers [] after isText.symm) with ⟨tail, empty, -⟩
            simp at empty
          have bound : (expand words pieces).length ≤ rounds := by
            simp only [expand_letter, List.length_cons] at enough
            omega
          calc replaceLoop (words k) new rounds ([c] ++ expand words pieces)
              = [c] ++ replaceLoop (words k) new rounds (expand words pieces) :=
                replaceLoop_skips skips
            _ = expand (Function.update words k new) (.letter c :: pieces) := by
                rw [ih covers.of_letter bound]
                rfl
      | mark i =>
          have covered := covers.of_mark (isWord i)
          rw [expand_mark] at enough ⊢
          rw [expand_mark]
          by_cases isMark : i = k
          · subst isMark
            have positive := List.length_pos_iff.mpr (isWord i)
            rw [List.length_append] at enough
            obtain ⟨rounds, rfl⟩ : ∃ less, rounds = less + 1 := ⟨rounds - 1, by omega⟩
            rw [replaceLoop_word, ih covered (by omega), Function.update_self]
          · have skips : Skips (words k) (expand words pieces) (words i) := by
              apply skips_of_le_length
              intro earlier later isText
              rcases markedAt_mark_iff.mp (covers earlier later isText) with
                ⟨rfl, -⟩ | ⟨tail, rfl, -⟩
              · exact absurd rfl isMark
              · simp
            rw [List.length_append] at enough
            rw [replaceLoop_skips skips, ih covered (by omega), Function.update_of_ne isMark]

/-- Replacing a word whose occurrences are marked changes the text at the marks. -/
theorem replaceAll_expand {new : List α} (covers : Covers words k pieces)
    (isWord : ∀ i, words i ≠ []) :
    replaceAll (words k) new (expand words pieces) =
      expand (Function.update words k new) pieces := by
  rw [replaceAll, if_neg (isWord k)]
  exact replaceLoop_expand covers isWord le_rfl

end Replacing

section Sequence

variable {pairs : List (List α × List α)} {text : List α}

/-- The words when the first replacements have been made. -/
def stage (pairs : List (List α × List α)) (count : ℕ) (i : Fin pairs.length) : List α :=
  if i < count then pairs[i].2 else pairs[i].1

/-- The result is the text with every occurrence of every word replaced, and what each of the
replacements finds are the occurrences in the text that was there in the beginning. -/
def Substitutes (pairs : List (List α × List α)) (text result : List α) : Prop :=
  ∃ pieces : List (Piece α (Fin pairs.length)),
    expand (stage pairs 0) pieces = text ∧ (∀ i, Covers (stage pairs 0) i pieces) ∧
      (∀ i : Fin pairs.length, Covers (stage pairs i) i pieces) ∧
      result = expand (stage pairs pairs.length) pieces

/-- Words that can be replaced one after the other. -/
structure Independent (pairs : List (List α × List α)) : Prop where
  separate : Separate (stage pairs 0)
  /-- A word shares no letter with what has been introduced before. -/
  apart : ∀ i j : Fin pairs.length, i < j → ¬Overlaps pairs[j].1 pairs[i].2

instance decidableIndependent [DecidableEq α] (pairs : List (List α × List α)) :
    Decidable (Independent pairs) :=
  decidable_of_iff (((∀ i j : Fin pairs.length, i ≠ j →
        ¬Overlaps (stage pairs 0 i) (stage pairs 0 j)) ∧
      ∀ i : Fin pairs.length, ¬OverlapsItself (stage pairs 0 i)) ∧
      ∀ i j : Fin pairs.length, i < j → ¬Overlaps pairs[j].1 pairs[i].2)
    ⟨fun both => ⟨⟨both.1.1, both.1.2⟩, both.2⟩, fun independent =>
      ⟨⟨independent.separate.apart, independent.separate.single⟩, independent.apart⟩⟩

theorem stage_self (i : Fin pairs.length) : stage pairs i i = pairs[i].1 :=
  if_neg (Nat.lt_irrefl _)

theorem stage_zero (i : Fin pairs.length) : stage pairs 0 i = pairs[i].1 :=
  if_neg (Nat.not_lt_zero _)

theorem stage_length (i : Fin pairs.length) : stage pairs pairs.length i = pairs[i].2 :=
  if_pos i.isLt

theorem stage_of_lt {i j : Fin pairs.length} (earlier : i < j) :
    stage pairs j i = pairs[i].2 := if_pos earlier

theorem stage_of_not_lt {i j : Fin pairs.length} (later : ¬i < j) :
    stage pairs j i = pairs[i].1 := if_neg later

theorem stage_ne_nil (areWords : ∀ pair ∈ pairs, pair.1 ≠ [] ∧ pair.2 ≠ []) (count : ℕ)
    (i : Fin pairs.length) : stage pairs count i ≠ [] := by
  have isPair := areWords pairs[i] (List.getElem_mem i.isLt)
  rw [stage]
  split
  case isTrue => exact isPair.2
  case isFalse => exact isPair.1

/-- What each of the replacements finds is independent of the ones before. -/
theorem Independent.covers (independent : Independent pairs)
    (areWords : ∀ pair ∈ pairs, pair.1 ≠ [] ∧ pair.2 ≠ [])
    {pieces : List (Piece α (Fin pairs.length))} {k : Fin pairs.length}
    (covers : Covers (stage pairs 0) k pieces) : Covers (stage pairs k) k pieces := by
  apply covers.replaced (independent.separate.single k) (stage_ne_nil areWords 0)
    (stage_ne_nil areWords k)
  · rw [stage_self, stage_zero]
  · intro i different
    by_cases earlier : i < k
    · rw [stage_zero, stage_of_lt earlier]
      exact independent.apart i k earlier
    · rw [stage_of_not_lt earlier, ← stage_zero]
      exact independent.separate.apart k i different.symm

/-- Only independent words can be replaced one after the other in every text. -/
theorem independent_of_substitutes (areWords : ∀ pair ∈ pairs, pair.1 ≠ [] ∧ pair.2 ≠ [])
    (always : ∀ text, ∃ result, Substitutes pairs text result) : Independent pairs := by
  have separate : Separate (stage pairs 0) := by
    apply separate_of_covers (stage_ne_nil areWords 0)
    intro text
    rcases always text with ⟨result, pieces, isText, covers, -⟩
    exact ⟨pieces, isText, covers⟩
  refine ⟨separate, ?_⟩
  intro i j earlier
  have apart : ¬Overlaps (stage pairs 0 j) (stage pairs j i) := by
    apply not_overlaps_of_covers separate (stage_ne_nil areWords 0)
    · rw [stage_self, stage_zero]
    · exact Fin.ne_of_lt earlier
    · intro text
      rcases always text with ⟨result, pieces, isText, covers, coversLater, -⟩
      exact ⟨pieces, isText, covers i, coversLater j⟩
  rwa [stage_zero, stage_of_lt earlier] at apart

def replaceEach [DecidableEq α] (pairs : List (List α × List α)) (text : List α) : List α :=
  pairs.foldl (fun text pair => replaceAll pair.1 pair.2 text) text

theorem update_stage {count : ℕ} (inside : count < pairs.length) :
    Function.update (stage pairs count) ⟨count, inside⟩ pairs[count].2 =
      stage pairs (count + 1) := by
  funext i
  by_cases isNext : i = ⟨count, inside⟩
  · subst isNext
    simp [stage]
  · rw [Function.update_of_ne isNext]
    have different : (i : ℕ) ≠ count := fun same => isNext (Fin.ext same)
    have same : (i : ℕ) < count + 1 ↔ (i : ℕ) < count := by omega
    simp only [stage, same]

variable [DecidableEq α]

theorem replaceEach_take {pieces : List (Piece α (Fin pairs.length))}
    (areWords : ∀ pair ∈ pairs, pair.1 ≠ [] ∧ pair.2 ≠ [])
    (covers : ∀ i : Fin pairs.length, Covers (stage pairs i) i pieces) {count : ℕ}
    (inside : count ≤ pairs.length) :
    replaceEach (pairs.take count) (expand (stage pairs 0) pieces) =
      expand (stage pairs count) pieces := by
  induction count with
  | zero => rfl
  | succ count ih =>
      have next : replaceAll pairs[count].1 pairs[count].2 (expand (stage pairs count) pieces) =
          expand (stage pairs (count + 1)) pieces := by
        rw [← update_stage inside, ← replaceAll_expand (covers ⟨count, inside⟩)
          (stage_ne_nil areWords count), stage_self ⟨count, inside⟩]
        rfl
      rw [replaceEach, List.take_succ_eq_append_getElem inside, List.foldl_append]
      rw [replaceEach] at ih
      rw [ih (Nat.le_of_succ_le inside)]
      exact next

/-- The replacements one after the other are the simultaneous substitution. -/
theorem Independent.substitutes (independent : Independent pairs)
    (areWords : ∀ pair ∈ pairs, pair.1 ≠ [] ∧ pair.2 ≠ []) (text : List α) :
    Substitutes pairs text (replaceEach pairs text) := by
  rcases independent.separate.exists_pieces (stage_ne_nil areWords 0) text with
    ⟨pieces, isText, covers⟩
  have coversLater (i : Fin pairs.length) := independent.covers areWords (covers i)
  refine ⟨pieces, isText, covers, coversLater, ?_⟩
  rw [← replaceEach_take areWords coversLater le_rfl, List.take_length, isText]

end Sequence

end PracticalCrypto.Substitution
