import PracticalCrypto.Surf.Demo.Headers

/-!
# Attributes of a tag

How HTML reads the attributes of a tag, character by character. Names are in lower case, and
character references in values stay as they are. A word that is searched for in the text of a
tag is found in the attributes: in a name, with the equals sign if there is nothing between them,
or in a value.
-/

namespace PracticalCrypto.Surf.Demo

open TextSearch HttpText

section Reading

structure Attribute where
  name : Text
  /-- The equals sign comes directly after the name. -/
  assigned : Bool
  value : Text
deriving DecidableEq

/-- Where the reader of a tag is, with what it has of the attribute. -/
inductive TagState where
  | beforeName
  | name (letters : Text)
  | afterName (letters : Text)
  | beforeValue (letters : Text) (assigned : Bool)
  | quoted (entry : Attribute) (double : Bool)
  | unquoted (entry : Attribute)

def isSpace (c : UInt8) : Bool := c = 32 ∨ c = 9 ∨ c = 10 ∨ c = 12 ∨ c = 13

def Attribute.read (entry : Attribute) (c : UInt8) : Attribute :=
  { entry with value := entry.value ++ [c] }

/-- A character of a tag after its name, as HTML reads it: the next state, and an attribute that
has ended. -/
def readAttribute (state : TagState) (c : UInt8) : TagState × Option Attribute :=
  match state with
  | .beforeName =>
      if isSpace c ∨ c = 47 ∨ c = 62 then (.beforeName, none) else (.name [tolower c], none)
  | .name letters =>
      if isSpace c then (.afterName letters, none)
      else if c = 61 then (.beforeValue letters true, none)
      else if c = 47 ∨ c = 62 then (.beforeName, some ⟨letters, false, []⟩)
      else (.name (letters ++ [tolower c]), none)
  | .afterName letters =>
      if isSpace c then (.afterName letters, none)
      else if c = 61 then (.beforeValue letters false, none)
      else if c = 47 ∨ c = 62 then (.beforeName, some ⟨letters, false, []⟩)
      else (.name [tolower c], some ⟨letters, false, []⟩)
  | .beforeValue letters assigned =>
      if isSpace c then (.beforeValue letters assigned, none)
      else if c = 34 ∨ c = 39 then (.quoted ⟨letters, assigned, []⟩ (c = 34), none)
      else if c = 62 then (.beforeName, some ⟨letters, assigned, []⟩)
      else (.unquoted ⟨letters, assigned, [c]⟩, none)
  | .quoted entry double =>
      if c = (if double then 34 else 39) then (.beforeName, some entry)
      else (.quoted (entry.read c) double, none)
  | .unquoted entry =>
      if isSpace c ∨ c = 62 then (.beforeName, some entry)
      else (.unquoted (entry.read c), none)

def stateAfter : TagState → Text → TagState
  | state, [] => state
  | state, c :: rest => stateAfter (readAttribute state c).1 rest

def attributesFrom : TagState → Text → List Attribute
  | _, [] => []
  | state, c :: rest =>
      (readAttribute state c).2.toList ++ attributesFrom (readAttribute state c).1 rest

def endsName (c : UInt8) : Bool := isSpace c ∨ c = 47 ∨ c = 62

def tagName (tag : Text) : Text := toLower ((tag.drop 1).takeWhile (!endsName ·))

/-- The rest of a tag after its name. -/
def attributeText (tag : Text) : Text := (tag.drop 1).dropWhile (!endsName ·)

def attributes (tag : Text) : List Attribute := attributesFrom .beforeName (attributeText tag)

def attributeNames (tag : Text) : List Text := (attributes tag).map Attribute.name

def attributeValue (tag name : Text) : Option Text :=
  ((attributes tag).find? (·.name = name)).map Attribute.value

theorem stateAfter_append (state : TagState) (front back : Text) :
    stateAfter state (front ++ back) = stateAfter (stateAfter state front) back := by
  induction front generalizing state with
  | nil => rfl
  | cons c front ih => exact ih _

theorem attributesFrom_append (state : TagState) (front back : Text) :
    attributesFrom state (front ++ back) =
      attributesFrom state front ++ attributesFrom (stateAfter state front) back := by
  induction front generalizing state with
  | nil => rfl
  | cons c front ih => simp [attributesFrom, stateAfter, ih]

end Reading

section Words

variable {word : Text}

/-- The texts of an attribute in which a word can be found. -/
def Attribute.words (entry : Attribute) : List Text :=
  [entry.name ++ if entry.assigned then [61] else [], toLower entry.value]

/-- The word is in one of the attributes. -/
def Mentions (word : Text) (entries : List Attribute) : Prop :=
  ∃ entry ∈ entries, ∃ text ∈ entry.words, word <:+: text

@[simp]
theorem not_mentions_nil : ¬Mentions word [] := by
  simp [Mentions]

@[simp]
theorem mentions_cons_iff {entry : Attribute} {entries : List Attribute} :
    Mentions word (entry :: entries) ↔
      (word <:+: entry.name ++ (if entry.assigned then [61] else []) ∨
        word <:+: toLower entry.value) ∨ Mentions word entries := by
  simp [Mentions, Attribute.words]

theorem mentions_append_iff {front back : List Attribute} :
    Mentions word (front ++ back) ↔ Mentions word front ∨ Mentions word back := by
  simp only [Mentions, List.mem_append, or_and_right, exists_or]

/-- The attribute that is being read. -/
def pending : TagState → List Attribute
  | .beforeName => []
  | .name letters | .afterName letters => [⟨letters, false, []⟩]
  | .beforeValue letters assigned => [⟨letters, assigned, []⟩]
  | .quoted entry _ | .unquoted entry => [entry]

/-- The name or value that is being read. -/
def current : TagState → Text
  | .name letters => letters
  | .quoted entry _ | .unquoted entry => toLower entry.value
  | .beforeName | .afterName _ | .beforeValue _ _ => []

/-- The characters that end a name or a value. -/
def delimiters : Text := [32, 9, 10, 12, 13] ++ ascii "/>\"'"

/-- A word that can be looked for: an equals sign is in it only at its end. -/
structure IsWord (word : Text) : Prop where
  nonempty : word.dropLast ≠ []
  undelimited : ∀ c ∈ delimiters, c ∉ word
  last : 61 ∉ word.dropLast

theorem IsWord.ne_nil (isWord : IsWord word) : word ≠ [] := by
  rintro rfl
  exact isWord.nonempty rfl

theorem mem_delimiters_of_isSpace {c : UInt8} (space : isSpace c = true) : c ∈ delimiters := by
  simp only [isSpace, decide_eq_true_eq] at space
  rcases space with rfl | rfl | rfl | rfl | rfl <;> decide

theorem tolower_of_mem_delimiters {c : UInt8} (delimiter : c ∈ delimiters) : tolower c = c := by
  have each : delimiters.all (fun d => tolower d = d) = true := by decide
  exact of_decide_eq_true (List.all_eq_true.mp each c delimiter)

section Step

variable {state next : TagState} {ended : Option Attribute} {c : UInt8} {rest : Text}

/-- What is found in the attribute so far or in what is left to read, before and after a step. -/
def SameWords (word : Text) (state : TagState) (c : UInt8) (rest : Text) (next : TagState)
    (ended : Option Attribute) : Prop :=
  Mentions word (ended.toList ++ pending next) ∨ word <:+: current next ++ rest ↔
    Mentions word (pending state) ∨ word <:+: current state ++ tolower c :: rest

theorem mentions_pending (nonempty : word ≠ []) (found : word <:+: current state) :
    Mentions word (pending state) := by
  cases state <;> simp_all [current, pending]

/-- The character belongs to the name or value. -/
theorem sameWords_letter (isNext : current next = current state ++ [tolower c])
    (same : Mentions word (ended.toList ++ pending next) ↔
      Mentions word (pending state) ∨ word <:+: current next) :
    SameWords word state c rest next ended := by
  have whole : current next ++ rest = current state ++ tolower c :: rest := by simp [isNext]
  have inside (found : word <:+: current next) : word <:+: current next ++ rest :=
    found.trans (List.prefix_append _ _).isInfix
  rw [SameWords, same, ← whole]
  tauto

theorem sameWords_value {entry : Attribute}
    (isState : pending state = [entry] ∧ current state = toLower entry.value)
    (isNext : pending next = [entry.read c] ∧ current next = toLower (entry.read c).value) :
    SameWords word state c rest next none := by
  have grows : word <:+: toLower entry.value → word <:+: toLower entry.value ++ toLower [c] :=
    fun inside => inside.trans (List.prefix_append _ _).isInfix
  apply sameWords_letter
  · rw [isNext.2, isState.2, Attribute.read, toLower_append]
    rfl
  · simp only [isNext, isState, Attribute.read, mentions_cons_iff, toLower_append,
      Option.toList_none, List.nil_append]
    tauto

/-- The character is between names and values. -/
theorem sameWords_delimiter (isWord : IsWord word) (delimiter : c ∈ delimiters)
    (isNext : current next = [])
    (same : Mentions word (ended.toList ++ pending next) ↔ Mentions word (pending state)) :
    SameWords word state c rest next ended := by
  have nonempty := isWord.ne_nil
  have known := @mentions_pending word state nonempty
  rw [SameWords, same, isNext, tolower_of_mem_delimiters delimiter, List.nil_append,
    infix_append_cons_iff nonempty (isWord.undelimited c delimiter)]
  tauto

/-- An equals sign after a blank is not a part of the word. -/
theorem sameWords_equals (isWord : IsWord word) (isNext : current next = [])
    (isState : current state = [])
    (same : Mentions word (ended.toList ++ pending next) ↔ Mentions word (pending state)) :
    SameWords word state 61 rest next ended := by
  have alone : ¬word <:+: [61] := by
    intro inside
    apply isWord.nonempty
    have short := inside.length_le
    rw [← List.length_eq_zero_iff, List.length_dropLast]
    simp only [List.length_singleton] at short
    omega
  have apart : word <:+: 61 :: rest ↔ word <:+: rest := by
    constructor
    · intro found
      have found : word <:+: [] ++ 61 :: rest := found
      exact (infix_of_infix_append_cons isWord.last found).resolve_left alone
    · exact List.infix_cons
  rw [SameWords, same, isNext, isState, show tolower 61 = 61 by decide, List.nil_append,
    List.nil_append, apart]

/-- An equals sign after a name can end the word. -/
theorem sameWords_assign (isWord : IsWord word) (letters : Text) :
    SameWords word (.name letters) 61 rest (.beforeValue letters true) none := by
  have nonempty := isWord.ne_nil
  have split : word <:+: letters ++ 61 :: rest → word <:+: letters ++ [61] ∨ word <:+: rest :=
    infix_of_infix_append_cons isWord.last
  have assigned : word <:+: letters ++ [61] → word <:+: letters ++ 61 :: rest := by
    intro found
    rw [← List.singleton_append, ← List.append_assoc]
    exact found.trans (List.prefix_append _ _).isInfix
  have plain : word <:+: letters → word <:+: letters ++ [61] := fun found =>
    found.trans (List.prefix_append _ _).isInfix
  have later : word <:+: rest → word <:+: letters ++ 61 :: rest := fun found =>
    found.trans ((List.suffix_cons _ _).trans (List.suffix_append _ _)).isInfix
  simp only [SameWords, Option.toList_none, List.nil_append, pending, mentions_cons_iff, if_true,
    not_mentions_nil, or_false, current, show tolower 61 = 61 by decide, toLower, List.map_nil,
    List.infix_nil, nonempty, Bool.false_eq_true, if_false, List.append_nil]
  tauto

end Step

theorem sameWords_readAttribute (isWord : IsWord word) (state : TagState) (c : UInt8)
    (rest : Text) :
    SameWords word state c rest (readAttribute state c).1 (readAttribute state c).2 := by
  have nonempty := isWord.ne_nil
  have endsTag (ends : c = 47 ∨ c = 62) : c ∈ delimiters := by
    rcases ends with rfl | rfl <;> decide
  fun_cases readAttribute state c with
  | case1 ends =>
      have delimiter := ends.elim mem_delimiters_of_isSpace endsTag
      exact sameWords_delimiter isWord delimiter rfl (by simp [pending])
  | case2 => exact sameWords_letter rfl (by simp [pending, current, nonempty, toLower])
  | case3 letters space | case7 letters space =>
      exact sameWords_delimiter isWord (mem_delimiters_of_isSpace space) rfl (by simp [pending])
  | case4 letters _ equals =>
      subst equals
      exact sameWords_assign isWord letters
  | case5 letters _ _ ends | case9 letters _ _ ends =>
      exact sameWords_delimiter isWord (endsTag ends) rfl (by simp [pending])
  | case6 letters =>
      apply sameWords_letter rfl
      have grows : word <:+: letters → word <:+: letters ++ [tolower c] := fun inside =>
        inside.trans (List.prefix_append _ _).isInfix
      simp only [pending, current, mentions_cons_iff, toLower, List.map_nil, List.infix_nil,
        Option.toList_none, List.nil_append, Bool.false_eq_true, if_false, List.append_nil]
      tauto
  | case8 letters _ equals =>
      subst equals
      apply sameWords_equals isWord rfl rfl
      simp [pending]
  | case10 letters => exact sameWords_letter rfl (by simp [pending, current, nonempty, toLower])
  | case11 letters assigned space =>
      exact sameWords_delimiter isWord (mem_delimiters_of_isSpace space) rfl (by simp [pending])
  | case12 letters assigned _ quote =>
      have delimiter : c ∈ delimiters := by rcases quote with rfl | rfl <;> decide
      exact sameWords_delimiter isWord delimiter rfl (by simp [pending])
  | case13 letters assigned _ _ ends =>
      exact sameWords_delimiter isWord (endsTag (Or.inr ends)) rfl (by simp [pending])
  | case14 letters assigned =>
      exact sameWords_letter rfl (by simp [pending, current, nonempty, toLower])
  | case15 entry double isQuote =>
      have delimiter : c ∈ delimiters := by
        cases double <;> subst isQuote <;> decide
      exact sameWords_delimiter isWord delimiter rfl (by simp [pending])
  | case16 entry double => exact sameWords_value ⟨rfl, rfl⟩ ⟨rfl, rfl⟩
  | case17 entry ends =>
      have delimiter := ends.elim mem_delimiters_of_isSpace fun ends => endsTag (Or.inr ends)
      exact sameWords_delimiter isWord delimiter rfl (by simp [pending])
  | case18 entry => exact sameWords_value ⟨rfl, rfl⟩ ⟨rfl, rfl⟩

/-- A word is in the text of a tag exactly if one of its attributes mentions it. -/
theorem mentions_attributesFrom_iff (isWord : IsWord word) (state : TagState) (text : Text) :
    Mentions word (attributesFrom state text ++ pending (stateAfter state text)) ↔
      Mentions word (pending state) ∨ word <:+: current state ++ toLower text := by
  induction text generalizing state with
  | nil =>
      have known := @mentions_pending word state isWord.ne_nil
      simp only [attributesFrom, stateAfter, toLower, List.map_nil, List.nil_append,
        List.append_nil]
      tauto
  | cons c text ih =>
      have step := sameWords_readAttribute isWord state c (toLower text)
      rw [SameWords] at step
      have lower : toLower (c :: text) = tolower c :: toLower text := rfl
      rw [lower, ← step, attributesFrom, stateAfter, List.append_assoc, mentions_append_iff, ih,
        mentions_append_iff, or_assoc]

end Words

section Tag

variable {word name rest : Text} {first : UInt8}

/-- An attribute can follow: no value is open or missing, and a slash does not end a value. -/
def TagState.takesAttribute : TagState → Bool
  | .beforeName | .name _ | .afterName _ => true
  | .beforeValue _ _ | .quoted _ _ => false
  | .unquoted entry => entry.value.getLast? ≠ some 47

theorem attributeText_cons (isName : ∀ c ∈ name, endsName c = false)
    (ends : ∀ c ∈ rest.head?, endsName c = true) :
    attributeText (first :: (name ++ rest)) = rest := by
  have after : rest.dropWhile (!endsName ·) = rest := by
    cases rest with
    | nil => rfl
    | cons c rest => simp [ends c rfl]
  rw [attributeText, List.drop_one, List.tail_cons, List.dropWhile_append_of_pos, after]
  simpa using isName

theorem mem_delimiters_of_endsName {c : UInt8} (ends : endsName c = true) : c ∈ delimiters := by
  simp only [endsName, decide_eq_true_eq] at ends
  rcases ends with space | rfl | rfl
  · exact mem_delimiters_of_isSpace space
  · decide
  · decide

theorem pending_close {state : TagState} (takes : state.takesAttribute = true) :
    pending (readAttribute state 62).1 = [] := by
  cases state <;> first | rfl | simp [TagState.takesAttribute] at takes

/-- A word is in a tag exactly if an attribute of the tag mentions it. -/
theorem infix_toLower_iff_mentions (isWord : IsWord word)
    (isName : ∀ c ∈ name, endsName c = false) (absent : ¬word <:+: toLower (first :: name))
    (ends : ∀ c ∈ (rest ++ [62]).head?, endsName c = true)
    (closes : (stateAfter .beforeName rest).takesAttribute = true) :
    word <:+: toLower (first :: (name ++ (rest ++ [62]))) ↔
      Mentions word (attributes (first :: (name ++ (rest ++ [62])))) := by
  have closed : pending (stateAfter .beforeName (rest ++ [62])) = [] := by
    rw [stateAfter_append]
    exact pending_close closes
  have read := mentions_attributesFrom_iff isWord .beforeName (rest ++ [62])
  rw [closed, List.append_nil] at read
  simp only [pending, current, not_mentions_nil, false_or, List.nil_append] at read
  rw [attributes, attributeText_cons isName ends, read, ← List.cons_append, toLower_append]
  generalize rest ++ [62] = text at ends
  cases text with
  | nil =>
      apply iff_of_false
      · simpa [toLower] using absent
      · simpa [toLower] using isWord.ne_nil
  | cons c text =>
      have delimiter := mem_delimiters_of_endsName (ends c rfl)
      have isLower : tolower c = c := tolower_of_mem_delimiters delimiter
      have out := isWord.undelimited c delimiter
      have lower : toLower (c :: text) = c :: toLower text := by
        rw [toLower, List.map_cons, isLower]
        rfl
      rw [lower, infix_append_cons_iff isWord.ne_nil out,
        ← List.nil_append (c :: toLower text), infix_append_cons_iff isWord.ne_nil out]
      simp [absent, isWord.ne_nil]

end Tag

end PracticalCrypto.Surf.Demo
