import PracticalCrypto.Library.TextSearch
import Mathlib.Data.List.Basic

/-!
# HTTP messages as texts

A message is a start line and header fields, each of them a line, a blank line and a body. Lines
end with CR LF. The text of a message determines its parts: the first blank line is the one
after the header section, and a search for a field by its name finds the first such field.
-/

namespace PracticalCrypto.HttpText

open TextSearch

abbrev Text := List UInt8

def ascii (literal : String) : Text := literal.toList.map fun char => UInt8.ofNat char.toNat

def crlf : Text := [13, 10]

section Lines

/-- There is no line break in the text. -/
def IsLine (text : Text) : Prop := ¬crlf <:+: text

instance decidableIsLine (text : Text) : Decidable (IsLine text) :=
  inferInstanceAs (Decidable ¬crlf <:+: text)

theorem IsLine.of_isInfix {part text : Text} (isLine : IsLine text) (isPart : part <:+: text) :
    IsLine part :=
  fun broken => isLine (broken.trans isPart)

theorem isLine_append_iff_of_left {front back : Text} (plain : 13 ∉ front) :
    IsLine (front ++ back) ↔ IsLine back := by
  induction front with
  | nil => rfl
  | cons c front ih =>
      rw [← ih fun inside => plain (by simp [inside])]
      apply not_congr
      rw [List.cons_append, List.infix_cons_iff]
      constructor
      · rintro (begins | inside)
        · rcases List.cons_prefix_cons.mp begins with ⟨rfl, _⟩
          simp at plain
        · exact inside
      · exact Or.inr

theorem isLine_append_iff_of_right {front back : Text} (plain : 10 ∉ back) :
    IsLine (front ++ back) ↔ IsLine front := by
  constructor
  · intro isLine
    exact isLine.of_isInfix (List.prefix_append front back).isInfix
  · rintro isLine ⟨before, after, same⟩
    rcases List.append_eq_append_iff.mp same with ⟨rest, isFront, _⟩ | ⟨excess, isBreak, isBack⟩
    · exact isLine ⟨before, rest, isFront.symm⟩
    · rcases List.eq_nil_or_concat excess with rfl | ⟨start, last, rfl⟩
      · exact isLine ⟨before, [], by simpa using isBreak⟩
      · have isLast : last = 10 := by
          have ends := congrArg List.getLast? isBreak
          simpa [crlf, eq_comm] using ends
        simp [isBack, isLast] at plain

theorem isLine_take_of_find {text : Text} {position : ℕ} (found : find crlf text = some position) :
    IsLine (text.take position) :=
  not_infix_take_of_find (by decide) found

/-- What may follow a line: nothing, or a line break. -/
def Ends (rest : Text) : Prop := ∀ c ∈ rest.head?, c = 13

theorem ends_nil : Ends [] := by simp [Ends]

theorem ends_crlf (rest : Text) : Ends (crlf ++ rest) := by simp [Ends, crlf]

theorem IsLine.skips {line rest : Text} (isLine : IsLine line) (ends : Ends rest) (key : Text) :
    Skips (crlf ++ key) rest line := by
  induction line with
  | nil => trivial
  | cons c line ih =>
      refine ⟨?_, ih (isLine.of_isInfix (List.infix_cons (List.infix_refl line)))⟩
      intro broken
      change 13 :: 10 :: key <+: c :: (line ++ rest) at broken
      rcases List.cons_prefix_cons.mp broken with ⟨rfl, feed⟩
      cases line with
      | nil =>
          rcases feed with ⟨after, isRest⟩
          have isRest : rest = 10 :: (key ++ after) := isRest.symm
          have both : (10 : UInt8) = 13 := ends 10 (by simp [isRest])
          cases both
      | cons d line =>
          rcases List.cons_prefix_cons.mp feed with ⟨isFeed, _⟩
          exact isLine ⟨[], line, by simp [crlf, isFeed]⟩

/-- The lines of a text. -/
def lines : Text → List Text
  | [] => [[]]
  | [c] => [[c]]
  | c :: d :: rest =>
      if c = 13 ∧ d = 10 then [] :: lines rest
      else (c :: (lines (d :: rest)).headD []) :: (lines (d :: rest)).tail

theorem IsLine.lines_eq {line : Text} (isLine : IsLine line) : lines line = [line] := by
  induction line using lines.induct with
  | case1 => rfl
  | case2 c => rfl
  | case3 c d rest isBreak _ =>
      exact absurd ⟨[], rest, by simp [crlf, isBreak]⟩ isLine
  | case4 c d rest noBreak ih =>
      rw [lines, if_neg noBreak, ih (isLine.of_isInfix (List.infix_cons (List.infix_refl _)))]
      rfl

theorem IsLine.lines_append {line : Text} (isLine : IsLine line) (rest : Text) :
    lines (line ++ (crlf ++ rest)) = line :: lines rest := by
  induction line using lines.induct with
  | case1 => simp [crlf, lines]
  | case2 c => simp [crlf, lines]
  | case3 c d later isBreak _ =>
      exact absurd ⟨[], later, by simp [crlf, isBreak]⟩ isLine
  | case4 c d later noBreak ih =>
      have isTail := isLine.of_isInfix (List.infix_cons (List.infix_refl (d :: later)))
      rw [List.cons_append, List.cons_append, lines, if_neg noBreak, ← List.cons_append, ih isTail]
      rfl

/-- Lines, each after a line break. -/
def fieldText (fields : List Text) : Text := fields.flatMap (crlf ++ ·)

@[simp]
theorem fieldText_nil : fieldText [] = [] := rfl

@[simp]
theorem fieldText_cons (field : Text) (fields : List Text) :
    fieldText (field :: fields) = crlf ++ (field ++ fieldText fields) := by
  simp [fieldText]

@[simp]
theorem fieldText_append (fields more : List Text) :
    fieldText (fields ++ more) = fieldText fields ++ fieldText more := by
  simp [fieldText]

theorem length_le_fieldText (fields : List Text) : fields.length ≤ (fieldText fields).length := by
  induction fields with
  | nil => simp
  | cons field fields ih =>
      simp [crlf]
      omega

theorem ends_fieldText (fields : List Text) {rest : Text} (ends : Ends rest) :
    Ends (fieldText fields ++ rest) := by
  cases fields with
  | nil => exact ends
  | cons field fields =>
      rw [fieldText_cons, List.append_assoc]
      exact ends_crlf _

theorem exists_crlf_append (fields : List Text) (rest : Text) :
    ∃ tail, fieldText fields ++ (crlf ++ rest) = crlf ++ tail := by
  cases fields with
  | nil => exact ⟨rest, rfl⟩
  | cons field fields =>
      exact ⟨field ++ fieldText fields ++ (crlf ++ rest), by simp⟩

theorem lines_fieldText {line : Text} {fields : List Text} (isLine : IsLine line)
    (areLines : ∀ field ∈ fields, IsLine field) :
    lines (line ++ fieldText fields) = line :: fields := by
  induction fields generalizing line with
  | nil => simpa using isLine.lines_eq
  | cons field fields ih =>
      rw [fieldText_cons, isLine.lines_append, ih (areLines field (by simp))]
      intro other isField
      exact areLines other (by simp [isField])

theorem exists_lines (text : Text) :
    ∃ line fields, text = line ++ fieldText fields ∧ IsLine line ∧
      ∀ field ∈ fields, IsLine field := by
  induction text using lines.induct with
  | case1 => exact ⟨[], [], rfl, by decide, by simp⟩
  | case2 c =>
      refine ⟨[c], [], rfl, ?_, by simp⟩
      intro broken
      have short := broken.length_le
      simp [crlf] at short
  | case3 c d rest isBreak ih =>
      rcases isBreak with ⟨rfl, rfl⟩
      rcases ih with ⟨line, fields, rfl, isLine, areLines⟩
      refine ⟨[], line :: fields, by simp [crlf], by decide, ?_⟩
      simpa using ⟨isLine, areLines⟩
  | case4 c d rest noBreak ih =>
      rcases ih with ⟨line, fields, isText, isLine, areLines⟩
      refine ⟨c :: line, fields, by simp [isText], ?_, areLines⟩
      intro broken
      rcases List.infix_cons_iff.mp broken with begins | inside
      · rcases List.cons_prefix_cons.mp begins with ⟨isReturn, feed, rfl⟩
        have isFeed : d = 10 := by simpa using congrArg List.head? isText
        exact noBreak ⟨isReturn.symm, isFeed⟩
      · exact isLine inside

theorem isLine_of_mem_lines {text line : Text} (isLine : line ∈ lines text) : IsLine line := by
  rcases exists_lines text with ⟨first, fields, rfl, isFirst, areLines⟩
  rw [lines_fieldText isFirst areLines] at isLine
  rcases List.mem_cons.mp isLine with rfl | isField
  · exact isFirst
  · exact areLines line isField

/-- A word that is not found at the beginning of any of the lines is skipped. -/
theorem skips_lines {line rest key : Text} {fields : List Text} (isLine : IsLine line)
    (areLines : ∀ field ∈ fields, IsLine field)
    (others : ∀ field ∈ fields, ∀ more, Ends more → ¬key <+: field ++ more) (ends : Ends rest) :
    Skips (crlf ++ key) rest (line ++ fieldText fields) := by
  induction fields generalizing line with
  | nil => simpa using isLine.skips ends key
  | cons field fields ih =>
      have later : Skips (crlf ++ key) rest (field ++ fieldText fields) := by
        apply ih (areLines field (by simp))
        · intro other isField
          exact areLines other (by simp [isField])
        · intro other isField
          exact others other (by simp [isField])
      rw [fieldText_cons]
      apply Skips.append
      · rw [List.append_assoc]
        exact isLine.skips (ends_crlf _) key
      · refine ⟨?_, ?_, later⟩
        · intro begins
          have here : key <+: field ++ (fieldText fields ++ rest) := by
            simpa [crlf] using begins
          exact others field (by simp) _ (ends_fieldText fields ends) here
        · simp [crlf]

section Keys

variable {line key : Text} {fields earlier later : List Text}

theorem skips_fields {rest : Text} (isLine : IsLine line)
    (areLines : ∀ field ∈ fields, IsLine field) (plain : 13 ∉ key)
    (others : ∀ field ∈ fields, ¬key <+: field) (ends : Ends rest) :
    Skips (crlf ++ key) rest (line ++ fieldText fields) := by
  apply skips_lines isLine areLines _ ends
  intro field isField more ends begins
  exact others field isField (prefix_of_prefix_append plain ends begins)

theorem find_field_none (isLine : IsLine line) (areLines : ∀ field ∈ fields, IsLine field)
    (plain : 13 ∉ key) (others : ∀ field ∈ fields, ¬key <+: field) :
    find (crlf ++ key) (line ++ fieldText fields) = none :=
  (skips_fields isLine areLines plain others ends_nil).find_none (by simp [crlf])

theorem find_field_some {value : Text} (isLine : IsLine line)
    (areLines : ∀ field ∈ earlier, IsLine field) (plain : 13 ∉ key)
    (others : ∀ field ∈ earlier, ¬key <+: field) :
    find (crlf ++ key) (line ++ fieldText (earlier ++ (key ++ value) :: later)) =
      some (line ++ fieldText earlier).length := by
  have ends : Ends (crlf ++ key ++ (value ++ fieldText later)) := by
    rw [List.append_assoc]
    exact ends_crlf _
  have found := (skips_fields isLine areLines plain others ends).find_at
  simpa using found

theorem IsLine.find_crlf (isLine : IsLine line) (fields : List Text) :
    find crlf (line ++ fieldText fields) = if fields = [] then none else some line.length := by
  cases fields with
  | nil =>
      rw [fieldText_nil, List.append_nil, if_pos rfl]
      exact find_eq_none_iff.mpr isLine
  | cons field fields =>
      have skips : Skips (crlf ++ []) (crlf ++ [] ++ (field ++ fieldText fields)) line :=
        isLine.skips (ends_crlf _) []
      simpa using skips.find_at

end Keys

end Lines

section Message

/-- The parts of a message. Every field is a line of its own, and the folded line of an obsolete
continuation counts as a field of its own. -/
@[ext]
structure Message where
  startLine : Text
  fields : List Text
  body : Text
  isLine_startLine : IsLine startLine
  isLine_fields : ∀ field ∈ fields, IsLine field
  fields_ne_nil : ∀ field ∈ fields, field ≠ []

/-- The header section: everything before the blank line. -/
def Message.head (message : Message) : Text := message.startLine ++ fieldText message.fields

def Message.text (message : Message) : Text := message.head ++ (crlf ++ crlf ++ message.body)

/-- The message with some of the fields only. -/
def Message.filterFields (message : Message) (keep : Text → Bool) : Message where
  startLine := message.startLine
  fields := message.fields.filter keep
  body := message.body
  isLine_startLine := message.isLine_startLine
  isLine_fields := fun field kept => message.isLine_fields field (List.mem_of_mem_filter kept)
  fields_ne_nil := fun field kept => message.fields_ne_nil field (List.mem_of_mem_filter kept)

theorem Message.filterFields_filterFields (message : Message) (keep also : Text → Bool) :
    (message.filterFields keep).filterFields also =
      message.filterFields fun field => also field && keep field := by
  ext1 <;> simp [Message.filterFields]

/-- A line that is not empty does not look like the blank line. -/
theorem IsLine.not_blank {line more : Text} (isLine : IsLine line) (nonempty : line ≠ [])
    (ends : Ends more) : ¬crlf <+: line ++ more := by
  intro begins
  have skips : Skips (crlf ++ []) more line := isLine.skips ends []
  cases line with
  | nil => exact nonempty rfl
  | cons c line => exact skips.1 (by simpa using begins)

theorem Message.find_blank (message : Message) :
    find (crlf ++ crlf) message.text = some message.head.length := by
  apply Skips.find_at
  apply skips_lines message.isLine_startLine message.isLine_fields
  · intro field isField more ends
    exact (message.isLine_fields field isField).not_blank
      (message.fields_ne_nil field isField) ends
  · rw [List.append_assoc]
    exact ends_crlf _

theorem exists_message {text : Text} {position : ℕ}
    (found : find (crlf ++ crlf) text = some position) :
    ∃ message : Message, text = message.text ∧ message.head.length = position := by
  rcases find_eq_some_iff.mp found with ⟨head, body, rfl, length, first⟩
  rcases exists_lines head with ⟨line, fields, rfl, isLine, areLines⟩
  refine ⟨⟨line, fields, body, isLine, areLines, ?_⟩, by simp [Message.text, Message.head], length⟩
  -- an empty field would be a blank line before the first one
  rintro _ isField rfl
  rcases List.append_of_mem isField with ⟨earlier, later, rfl⟩
  rcases exists_crlf_append later (crlf ++ body) with ⟨rest, isRest⟩
  have bound := first (line ++ fieldText earlier) rest (by simp_all)
  simp only [← length, fieldText_append, fieldText_cons, List.length_append, crlf,
    List.length_cons] at bound
  omega

theorem Message.text_injective {message other : Message} (same : message.text = other.text) :
    message.startLine = other.startLine ∧ message.fields = other.fields ∧
      message.body = other.body := by
  have lengths : message.head.length = other.head.length := by
    have blank := message.find_blank
    rw [same, other.find_blank] at blank
    exact (Option.some.inj blank).symm
  rcases List.append_inj same lengths with ⟨heads, bodies⟩
  have isLines := congrArg lines heads
  rw [Message.head, lines_fieldText message.isLine_startLine message.isLine_fields, Message.head,
    lines_fieldText other.isLine_startLine other.isLine_fields] at isLines
  rcases List.cons.inj isLines with ⟨startLines, fields⟩
  exact ⟨startLines, fields, List.append_cancel_left bodies⟩

/-- The message with another field in front. -/
def Message.insertField (message : Message) (field : Text) (isLine : IsLine field)
    (nonempty : field ≠ []) : Message where
  startLine := message.startLine
  fields := field :: message.fields
  body := message.body
  isLine_startLine := message.isLine_startLine
  isLine_fields := List.forall_mem_cons.mpr ⟨isLine, message.isLine_fields⟩
  fields_ne_nil := List.forall_mem_cons.mpr ⟨nonempty, message.fields_ne_nil⟩

theorem Message.find_crlf (message : Message) :
    find crlf message.text = some message.startLine.length := by
  rcases exists_crlf_append message.fields (crlf ++ message.body) with ⟨rest, isRest⟩
  have skips : Skips (crlf ++ []) (crlf ++ [] ++ rest) message.startLine :=
    message.isLine_startLine.skips (ends_crlf _) []
  rw [Message.text, Message.head, List.append_assoc, List.append_assoc crlf, isRest]
  simpa using skips.find_at

theorem Message.insertField_text (message : Message) {field : Text} (isLine : IsLine field)
    (nonempty : field ≠ []) :
    (message.insertField field isLine nonempty).text =
      message.text.take (message.startLine.length + 2) ++ (field ++ crlf) ++
        message.text.drop (message.startLine.length + 2) := by
  rcases exists_crlf_append message.fields (crlf ++ message.body) with ⟨rest, isRest⟩
  have isText : message.text = (message.startLine ++ crlf) ++ rest := by
    rw [Message.text, Message.head, List.append_assoc, List.append_assoc crlf, isRest]
    simp
  have length : message.startLine.length + 2 = (message.startLine ++ crlf).length := by simp [crlf]
  rw [length, isText, List.take_left, List.drop_left, Message.text, Message.head,
    Message.insertField, fieldText_cons]
  simp only [List.append_assoc]
  rw [isRest]

end Message

end PracticalCrypto.HttpText
