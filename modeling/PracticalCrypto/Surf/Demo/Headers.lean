import PracticalCrypto.Library.HttpText
import Mathlib.Data.List.DropRight

/-!
# Header fields in the browser proxy

The proxy of the demo (`surf-impl/src/demo/proxy.b.cpp`) works on the raw text of requests and
responses. It finds a field by searching for a line break, the name and a colon in the header
section, with all letters in lower case. On the text of a message these searches are operations
on its list of fields.
-/

namespace PracticalCrypto.Surf.Demo

open TextSearch HttpText

section Text

/-- `std::tolower` in the C locale. -/
def tolower (c : UInt8) : UInt8 := if 65 ≤ c ∧ c ≤ 90 then c + 32 else c

def toLower (text : Text) : Text := text.map tolower

/-- A blank or a tab. -/
def isBlank (c : UInt8) : Bool := c = 32 ∨ c = 9

def trim (text : Text) : Text := (text.dropWhile isBlank).rdropWhile isBlank

/-- `std::to_string`. -/
def decimal (number : ℕ) : Text := ascii (toString number)

theorem toNat_of_mem_toDigits {number : ℕ} {digit : Char}
    (isDigit : digit ∈ Nat.toDigits 10 number) : 48 ≤ digit.toNat ∧ digit.toNat ≤ 57 := by
  have bounds := Nat.isDigit_of_mem_toDigits (by decide) le_rfl isDigit
  simp only [Char.isDigit, ge_iff_le, Bool.and_eq_true, decide_eq_true_eq,
    UInt32.le_iff_toNat_le] at bounds
  exact bounds

theorem decimal_eq (number : ℕ) :
    decimal number = (Nat.toDigits 10 number).map fun digit => UInt8.ofNat digit.toNat := by
  rw [← Nat.toList_repr]
  rfl

theorem decimal_ne_nil (number : ℕ) : decimal number ≠ [] := by
  simp [decimal_eq, Nat.toDigits_ne_nil]

theorem digit_of_mem_decimal {number : ℕ} {c : UInt8} (inside : c ∈ decimal number) :
    48 ≤ c.toNat ∧ c.toNat ≤ 57 := by
  rw [decimal_eq] at inside
  rcases List.mem_map.mp inside with ⟨digit, isDigit, rfl⟩
  have bounds := toNat_of_mem_toDigits isDigit
  rw [UInt8.toNat_ofNat']
  omega

theorem tolower_eq_iff {c d : UInt8} (early : d < 65) : tolower c = d ↔ c = d := by
  unfold tolower
  split
  · rename_i upper
    simp only [UInt8.le_iff_toNat_le, UInt8.lt_iff_toNat_lt, ← UInt8.toNat_inj, UInt8.toNat_add,
      UInt8.reduceToNat] at *
    omega
  · rfl

@[simp]
theorem toLower_append (front back : Text) :
    toLower (front ++ back) = toLower front ++ toLower back := List.map_append

@[simp]
theorem length_toLower (text : Text) : (toLower text).length = text.length := List.length_map _

theorem mem_toLower_iff {text : Text} {d : UInt8} (early : d < 65) :
    d ∈ toLower text ↔ d ∈ text := by
  simp [toLower, tolower_eq_iff early]

theorem toLower_crlf : toLower crlf = crlf := by decide

theorem toLower_eq_crlf_iff {text : Text} : toLower text = crlf ↔ text = crlf := by
  rcases text with _ | ⟨c, _ | ⟨d, rest⟩⟩ <;>
    simp [toLower, crlf, tolower_eq_iff (show (13 : UInt8) < 65 by decide),
      tolower_eq_iff (show (10 : UInt8) < 65 by decide)]

theorem toLower_fieldText (fields : List Text) :
    toLower (fieldText fields) = fieldText (fields.map toLower) := by
  induction fields with
  | nil => rfl
  | cons field fields ih => simp [toLower_crlf, ih]

theorem isLine_toLower_iff {text : Text} : IsLine (toLower text) ↔ IsLine text := by
  apply not_congr
  constructor
  · rintro ⟨before, after, same⟩
    rcases List.map_eq_append_iff.mp same.symm with ⟨front, back, rfl, isFront, _⟩
    rcases List.map_eq_append_iff.mp isFront with ⟨start, middle, rfl, _, isMiddle⟩
    exact ⟨start, back, by rw [toLower_eq_crlf_iff.mp isMiddle]⟩
  · intro broken
    have lowered : toLower crlf <:+: toLower text := broken.map tolower
    simpa only [toLower_crlf] using lowered

theorem toLower_take (text : Text) (count : ℕ) :
    toLower (text.take count) = (toLower text).take count := List.map_take

theorem toLower_drop (text : Text) (count : ℕ) :
    toLower (text.drop count) = (toLower text).drop count := List.map_drop

theorem toLower_take_append_drop (text : Text) (start stop : ℕ) :
    (toLower text).take start ++ (toLower text).drop stop =
      toLower (text.take start ++ text.drop stop) := by
  rw [toLower_append, toLower_take, toLower_drop]

theorem trim_isInfix (text : Text) : trim text <:+: text :=
  (List.rdropWhile_prefix _ _).isInfix.trans (List.dropWhile_suffix _).isInfix

theorem tolower_of_isBlank {c : UInt8} (blank : isBlank c = true) : tolower c = c := by
  simp only [isBlank, decide_eq_true_eq] at blank
  rcases blank with rfl | rfl <;> rfl

/-- The blanks around a text do not matter to a search for a word without blanks. -/
theorem infix_toLower_trim_iff {word text : Text} (nonempty : word ≠ [])
    (unblank : ∀ c ∈ word, isBlank c = false) :
    word <:+: toLower (trim text) ↔ word <:+: toLower text := by
  have apart {blanks : Text} (areBlank : ∀ c ∈ blanks, isBlank c = true) :
      ∀ c ∈ toLower blanks, c ∉ word := by
    intro c inside isWord
    rcases List.mem_map.mp inside with ⟨d, isBlanks, rfl⟩
    have blank := areBlank d isBlanks
    rw [tolower_of_isBlank blank] at isWord
    simp [unblank d isWord] at blank
  have left : word <:+: toLower (text.dropWhile isBlank) ↔ word <:+: toLower text := by
    conv_rhs => rw [← List.takeWhile_append_dropWhile (p := isBlank) (l := text), toLower_append]
    rw [infix_append_iff_of_left nonempty (apart fun c => List.mem_takeWhile_imp)]
  rw [← left, trim]
  generalize text.dropWhile isBlank = rest
  have split : rest = rest.rdropWhile isBlank ++ rest.rtakeWhile isBlank :=
    (List.rdropWhile_append_rtakeWhile ..).symm
  conv_rhs => rw [split, toLower_append]
  rw [infix_append_iff_of_right nonempty (apart fun c => List.mem_rtakeWhile_imp)]

end Text

section Fields

/-- What comes before the blank line. -/
def headerSection (message : Text) : Text :=
  message.take ((find (crlf ++ crlf) message).getD message.length)

/-- The name and the colon, as they are searched for. -/
def fieldKey (name : Text) : Text := toLower name ++ ascii ":"

def headerValue (message name : Text) : Text :=
  let headers := headerSection message
  let lowered := toLower headers
  let key := crlf ++ fieldKey name
  match find key lowered with
  | none => []
  | some found =>
      let start := found + key.length
      let stop := (findFrom crlf start lowered).getD headers.length
      trim ((headers.drop start).take (stop - start))

/-- The loop of `remove_header`, which erases the same part of both strings. Every round shortens
them, so as many rounds as there are characters are enough. -/
def removeLoop (key : Text) : ℕ → Text → Text → Text
  | 0, response, _ => response
  | rounds + 1, response, low =>
      match find key low with
      | none => response
      | some start =>
          let stop := (findFrom crlf (start + 2) low).getD low.length
          removeLoop key rounds (response.take start ++ response.drop stop)
            (low.take start ++ low.drop stop)

def removeHeader (response name : Text) : Text :=
  let low := toLower (headerSection response)
  removeLoop (crlf ++ fieldKey name) low.length response low

theorem isLine_headerValue (message name : Text) : IsLine (headerValue message name) := by
  unfold headerValue
  simp only
  split
  · decide
  · rename_i found _
    generalize found + (crlf ++ fieldKey name).length = start
    apply IsLine.of_isInfix _ (trim_isInfix _)
    rw [findFrom, ← toLower_drop]
    generalize (headerSection message).drop start = rest
    cases ended : find crlf (toLower rest) with
    | none =>
        have isLine : IsLine rest := isLine_toLower_iff.mp (find_eq_none_iff.mp ended)
        exact isLine.of_isInfix (List.take_prefix _ rest).isInfix
    | some stop =>
        have isLine : IsLine (toLower (rest.take stop)) := by
          rw [toLower_take]
          exact isLine_take_of_find ended
        rw [Option.map_some, Option.getD_some, Nat.add_sub_cancel_left]
        exact isLine_toLower_iff.mp isLine

end Fields

section Names

variable {name field line : Text} {fields earlier later : List Text}

/-- The name of the field is `name`, whatever the case of the letters. -/
def isNamed (name field : Text) : Bool :=
  58 ∈ field ∧ toLower (field.takeWhile (· ≠ 58)) = toLower name

theorem exists_of_isNamed (named : isNamed name field = true) :
    ∃ start value, field = start ++ 58 :: value ∧ 58 ∉ start ∧ toLower start = toLower name := by
  simp only [isNamed, decide_eq_true_eq] at named
  rcases named with ⟨colon, isEqual⟩
  rcases List.eq_append_cons_of_mem colon with ⟨start, value, rfl, absent⟩
  rw [takeWhile_ne_append absent] at isEqual
  exact ⟨start, value, rfl, absent, isEqual⟩

theorem isNamed_append {start value : Text} (absent : 58 ∉ start)
    (isEqual : toLower start = toLower name) : isNamed name (start ++ 58 :: value) = true := by
  simp only [isNamed, takeWhile_ne_append absent, decide_eq_true_eq]
  exact ⟨by simp, isEqual⟩

/-- A field name has no colon and no line break in it. -/
def IsName (name : Text) : Prop := 58 ∉ name ∧ 13 ∉ name

instance decidableIsName (name : Text) : Decidable (IsName name) :=
  inferInstanceAs (Decidable (_ ∧ _))

theorem IsName.plain (isName : IsName name) : 13 ∉ fieldKey name := by
  have colon : (13 : UInt8) ∉ ascii ":" := by decide
  simp [fieldKey, mem_toLower_iff (show (13 : UInt8) < 65 by decide), isName.2, colon]

theorem IsName.fieldKey_begins_iff (isName : IsName name) :
    fieldKey name <+: toLower field ↔ isNamed name field = true := by
  have early : (58 : UInt8) < 65 := by decide
  constructor
  · rintro ⟨value, same⟩
    rcases List.map_eq_append_iff.mp same.symm with ⟨front, back, rfl, isFront, _⟩
    rcases List.map_eq_append_iff.mp isFront with ⟨start, last, rfl, isStart, isLast⟩
    obtain rfl : last = [58] := by
      rcases last with _ | ⟨c, _ | ⟨d, rest⟩⟩ <;> simp_all [ascii, tolower_eq_iff early]
    have absent : 58 ∉ start := by
      rw [← mem_toLower_iff early, toLower, isStart, mem_toLower_iff early]
      exact isName.1
    rw [List.append_assoc]
    exact isNamed_append absent isStart
  · intro named
    rcases exists_of_isNamed named with ⟨start, value, rfl, _, isEqual⟩
    refine ⟨toLower value, ?_⟩
    rw [fieldKey, ← isEqual, toLower_append, List.append_assoc]
    rfl

theorem IsName.find_none (isName : IsName name) (isLine : IsLine line)
    (areLines : ∀ field ∈ fields, IsLine field)
    (others : ∀ field ∈ fields, isNamed name field = false) :
    find (crlf ++ fieldKey name) (toLower (line ++ fieldText fields)) = none := by
  rw [toLower_append, toLower_fieldText]
  apply find_field_none (isLine_toLower_iff.mpr isLine)
  · simpa [isLine_toLower_iff] using areLines
  · exact isName.plain
  · simpa [isName.fieldKey_begins_iff] using others

theorem IsName.find_some (isName : IsName name) (isLine : IsLine line)
    (areLines : ∀ field ∈ earlier, IsLine field)
    (others : ∀ field ∈ earlier, isNamed name field = false) (named : isNamed name field = true) :
    find (crlf ++ fieldKey name) (toLower (line ++ fieldText (earlier ++ field :: later))) =
      some (line ++ fieldText earlier).length := by
  rcases isName.fieldKey_begins_iff.mpr named with ⟨value, isField⟩
  have areLowered : ∀ field ∈ earlier.map toLower, IsLine field := by
    simpa [isLine_toLower_iff] using areLines
  have otherKeys : ∀ field ∈ earlier.map toLower, ¬fieldKey name <+: field := by
    simpa [isName.fieldKey_begins_iff] using others
  rw [toLower_append, toLower_fieldText, List.map_append, List.map_cons, ← isField,
    find_field_some (isLine_toLower_iff.mpr isLine) areLowered isName.plain otherKeys,
    ← toLower_fieldText, ← toLower_append, length_toLower]

theorem drop_fieldText {front : Text} {skip : ℕ} (inside : skip ≤ field.length) :
    (front ++ fieldText (field :: later)).drop (front.length + 2 + skip) =
      field.drop skip ++ fieldText later := by
  have length : front.length + 2 + skip = front.length + (crlf.length + skip) := by
    simp [crlf, Nat.add_assoc]
  rw [length, ← List.drop_drop, List.drop_left, fieldText_cons, ← List.drop_drop, List.drop_left,
    List.drop_append_of_le_length inside]

theorem erase_fieldText (front tail : Text) :
    (front ++ fieldText (field :: later) ++ tail).take front.length ++
        (front ++ fieldText (field :: later) ++ tail).drop (front.length + 2 + field.length) =
      front ++ fieldText later ++ tail := by
  have inside : front.length + 2 + field.length ≤ (front ++ fieldText (field :: later)).length := by
    simp [crlf]
    omega
  rw [List.drop_append_of_le_length inside, drop_fieldText le_rfl, List.append_assoc,
    List.take_left]
  simp

theorem findFrom_crlf {front : Text} {skip : ℕ} (isLine : IsLine field)
    (inside : skip ≤ field.length) :
    (findFrom crlf (front.length + 2 + skip) (front ++ fieldText (field :: later))).getD
        (front ++ fieldText (field :: later)).length =
      front.length + 2 + field.length := by
  have isRest : IsLine (field.drop skip) := isLine.of_isInfix (List.drop_suffix skip field).isInfix
  rw [findFrom, drop_fieldText inside, isRest.find_crlf]
  cases later with
  | nil => simp [crlf]; omega
  | cons other later => simp; omega

theorem findFrom_crlf_toLower {front : Text} {skip : ℕ} (isLine : IsLine field)
    (inside : skip ≤ field.length) :
    (findFrom crlf (front.length + 2 + skip) (toLower (front ++ fieldText (field :: later)))).getD
        (front ++ fieldText (field :: later)).length =
      front.length + 2 + field.length := by
  have lowered : toLower (front ++ fieldText (field :: later)) =
      toLower front ++ fieldText (toLower field :: later.map toLower) := by
    rw [toLower_append, toLower_fieldText, List.map_cons]
  have isLower : IsLine (toLower field) := isLine_toLower_iff.mpr isLine
  have stop := @findFrom_crlf _ (later.map toLower) (toLower front) skip isLower
    (by simpa using inside)
  rw [← length_toLower (front ++ fieldText (field :: later)), lowered]
  simpa using stop

end Names

section Messages

variable {name : Text}

theorem headerSection_text (message : Message) : headerSection message.text = message.head := by
  rw [headerSection, message.find_blank, Option.getD_some, Message.text, List.take_left]

theorem IsName.headerValue_text (isName : IsName name) (message : Message) :
    headerValue message.text name =
      ((message.fields.find? (isNamed name)).map fun field =>
        trim (field.drop (fieldKey name).length)).getD [] := by
  simp only [headerValue, headerSection_text]
  cases first : message.fields.find? (isNamed name) with
  | none =>
      have others : ∀ field ∈ message.fields, isNamed name field = false := by
        simpa using first
      rw [Message.head, isName.find_none message.isLine_startLine message.isLine_fields others]
      rfl
  | some field =>
      rcases List.find?_eq_some_iff_append.mp first with ⟨named, earlier, later, isFields, others⟩
      have areLines : ∀ other ∈ earlier, IsLine other := by
        intro other isEarlier
        exact message.isLine_fields other (by simp [isFields, isEarlier])
      have isLine : IsLine field := message.isLine_fields field (by simp [isFields])
      have inside : (fieldKey name).length ≤ field.length := by
        simpa using (isName.fieldKey_begins_iff.mpr named).length_le
      have others : ∀ other ∈ earlier, isNamed name other = false := by simpa using others
      rw [Message.head, isFields,
        isName.find_some message.isLine_startLine areLines others named, fieldText_append,
        ← List.append_assoc]
      generalize message.startLine ++ fieldText earlier = front
      have start : front.length + (crlf ++ fieldKey name).length =
          front.length + 2 + (fieldKey name).length := by simp [crlf]; omega
      have width : front.length + 2 + field.length -
          (front.length + 2 + (fieldKey name).length) =
          (field.drop (fieldKey name).length).length := by rw [List.length_drop]; omega
      simp only [start, findFrom_crlf_toLower isLine inside, drop_fieldText inside, width,
        List.take_left, Option.map_some, Option.getD_some]

theorem IsName.removeLoop_fields (isName : IsName name) {line tail : Text} {fields : List Text}
    {rounds : ℕ} (isLine : IsLine line) (areLines : ∀ field ∈ fields, IsLine field)
    (enough : fields.length ≤ rounds) :
    removeLoop (crlf ++ fieldKey name) rounds (line ++ fieldText fields ++ tail)
        (toLower (line ++ fieldText fields)) =
      line ++ fieldText (fields.filter fun field => !isNamed name field) ++ tail := by
  induction rounds generalizing fields with
  | zero =>
      have empty : fields = [] := by simpa using enough
      simp [removeLoop, empty]
  | succ rounds ih =>
      cases first : fields.find? (isNamed name) with
      | none =>
          have others : ∀ field ∈ fields, isNamed name field = false := by simpa using first
          have kept : (fields.filter fun field => !isNamed name field) = fields := by
            simpa [List.filter_eq_self] using others
          rw [removeLoop, isName.find_none isLine areLines others, kept]
      | some field =>
          rcases List.find?_eq_some_iff_append.mp first with
            ⟨named, earlier, later, rfl, others⟩
          have others : ∀ other ∈ earlier, isNamed name other = false := by simpa using others
          have earlierLines : ∀ other ∈ earlier, IsLine other := by
            intro other isEarlier
            exact areLines other (by simp [isEarlier])
          have otherLines : ∀ other ∈ earlier ++ later, IsLine other := by
            intro other isOther
            rcases List.mem_append.mp isOther with isEarlier | isLater
            · exact earlierLines other isEarlier
            · exact areLines other (by simp [isLater])
          have fewer : (earlier ++ later).length ≤ rounds := by
            simp at enough ⊢
            omega
          have rest := ih otherLines fewer
          rw [removeLoop, isName.find_some isLine earlierLines others named]
          simp only [fieldText_append, ← List.append_assoc, List.filter_append, length_toLower,
            toLower_take_append_drop] at rest ⊢
          generalize line ++ fieldText earlier = front at rest ⊢
          have stop : (findFrom crlf (front.length + 2)
              (toLower (front ++ fieldText (field :: later)))).getD
                (front ++ fieldText (field :: later)).length = front.length + 2 + field.length :=
            findFrom_crlf_toLower (areLines field (by simp)) (Nat.zero_le _)
          have low : (front ++ fieldText (field :: later)).take front.length ++
              (front ++ fieldText (field :: later)).drop (front.length + 2 + field.length) =
                front ++ fieldText later := by
            simpa only [List.append_nil] using erase_fieldText front []
          rw [stop, erase_fieldText, low, rest]
          simp [named]

theorem IsName.removeHeader_text (isName : IsName name) (message : Message) :
    removeHeader message.text name =
      (message.filterFields fun field => !isNamed name field).text := by
  have enough : message.fields.length ≤ (toLower message.head).length := by
    rw [length_toLower, Message.head, List.length_append]
    exact (length_le_fieldText message.fields).trans (Nat.le_add_left _ _)
  rw [removeHeader, headerSection_text]
  exact isName.removeLoop_fields message.isLine_startLine message.isLine_fields enough

/-- The start line of a successful response. -/
theorem isLine_ok : IsLine (ascii "HTTP/1.1 200 OK") := by decide

end Messages

end PracticalCrypto.Surf.Demo
