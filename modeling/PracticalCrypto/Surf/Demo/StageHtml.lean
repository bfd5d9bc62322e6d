import PracticalCrypto.Surf.Demo.HtmlAttributes
import Mathlib.Data.List.Forall2

/-!
# Staged documents

In stage mode the proxy edits HTML documents so that stylesheets do not hold up the first
rendering (`stage_html_response` in `surf-impl/src/demo/proxy.b.cpp`). A text `<link`, in any
case, up to the next `>` is a link tag. A tag with the word `stylesheet` and without the text
`media=` gets two attributes, and the length of the body in the header is corrected.

The scan works on the text and does not parse the document, so a tag with a media attribute in
another spelling is edited as well. In a document whose link tags are `Plain`, the edited tags
are the stylesheets without a media attribute, as HTML reads them.
-/

namespace PracticalCrypto.Surf.Demo

open TextSearch HttpText

section Unblocking

def linkStart : Text := ascii "<link"

def stagingAttributes : Text := ascii " media=\"print\" onload=\"this.media='all'\""

/-- The tag holds up the rendering, as far as the scan can tell. -/
def isBlocking (tag : Text) : Bool :=
  (find (ascii "stylesheet") (toLower tag)).isSome && (find (ascii "media=") (toLower tag)).isNone

/-- The attributes go before `>` or `/>`. -/
def stageTag (tag : Text) : Text :=
  let last := tag.length - 1
  let position := if 0 < last ∧ tag[last - 1]? = some 47 then last - 1 else last
  tag.take position ++ stagingAttributes ++ tag.drop position

/-- The loop of `unblock_stylesheets` on what is left of the document. Every round consumes a
tag, so as many rounds as there are characters are enough. -/
def unblockLoop : ℕ → Text → Text × ℕ
  | 0, rest => (rest, 0)
  | rounds + 1, rest =>
      match find linkStart (toLower rest) with
      | none => (rest, 0)
      | some start =>
          match findFrom (ascii ">") start rest with
          | none => (rest, 0)
          | some stop =>
              let tag := (rest.drop start).take (stop - start + 1)
              let later := unblockLoop rounds (rest.drop (stop + 1))
              if isBlocking tag then (rest.take start ++ stageTag tag ++ later.1, later.2 + 1)
              else (rest.take start ++ tag ++ later.1, later.2)

def unblockStylesheets (html : Text) : Text × ℕ := unblockLoop html.length html

end Unblocking

section Scan

/-- The text of a link tag. -/
def IsLinkTag (tag : Text) : Prop :=
  ∃ inner, tag = inner ++ [62] ∧ 62 ∉ inner ∧ linkStart <+: toLower inner

/-- There is no link tag: nothing that begins like one is closed. -/
def NoLinkTag (text : Text) : Prop :=
  ∀ gap tag, text = gap ++ tag → linkStart <+: toLower tag → 62 ∉ tag

/-- The link tags of a document, each with the text before it, and the text after the last. -/
inductive Scanned : Text → List (Text × Text) → Text → Prop where
  | tail {rest : Text} (untagged : NoLinkTag rest) : Scanned rest [] rest
  | tag {gap tag rest tail : Text} {pieces : List (Text × Text)}
      (gapFree : ¬linkStart <:+: toLower gap) (isTag : IsLinkTag tag)
      (later : Scanned rest pieces tail) :
      Scanned (gap ++ (tag ++ rest)) ((gap, tag) :: pieces) tail

theorem IsLinkTag.find_start {gap tag : Text} (isTag : IsLinkTag tag)
    (gapFree : ¬linkStart <:+: toLower gap) (rest : Text) :
    find linkStart (toLower (gap ++ (tag ++ rest))) = some gap.length := by
  rcases isTag with ⟨inner, rfl, _, more, isInner⟩
  have once : (60 : UInt8) ∉ ascii "link" := by decide
  have found := (skips_of_not_isInfix once gapFree (more ++ toLower ([62] ++ rest))).find_at
  rw [length_toLower] at found
  rw [List.append_assoc, toLower_append, toLower_append, ← isInner, List.append_assoc]
  exact found

theorem IsLinkTag.find_stop {tag : Text} (isTag : IsLinkTag tag) (gap rest : Text) :
    findFrom (ascii ">") gap.length (gap ++ (tag ++ rest)) =
      some (gap.length + (tag.length - 1)) := by
  rcases isTag with ⟨inner, rfl, unclosed, _⟩
  have found : find (ascii ">") (inner ++ [62] ++ rest) = some inner.length := by
    rw [List.append_assoc]
    exact find_singleton unclosed rest
  rw [findFrom, List.drop_left, found]
  simp

theorem IsLinkTag.ne_nil {tag : Text} (isTag : IsLinkTag tag) : tag ≠ [] := by
  rcases isTag with ⟨inner, rfl, _⟩
  simp

theorem unblockLoop_tag {gap tag rest : Text} {rounds : ℕ} (gapFree : ¬linkStart <:+: toLower gap)
    (isTag : IsLinkTag tag) :
    unblockLoop (rounds + 1) (gap ++ (tag ++ rest)) =
      (gap ++ (if isBlocking tag then stageTag tag else tag) ++ (unblockLoop rounds rest).1,
        (unblockLoop rounds rest).2 + if isBlocking tag then 1 else 0) := by
  have positive : 0 < tag.length := List.length_pos_iff.mpr isTag.ne_nil
  have width : gap.length + (tag.length - 1) - gap.length + 1 = tag.length := by omega
  have stop : gap.length + (tag.length - 1) + 1 = (gap ++ tag).length := by
    rw [List.length_append]
    omega
  have after : (gap ++ (tag ++ rest)).drop (gap.length + (tag.length - 1) + 1) = rest := by
    rw [stop, ← List.append_assoc, List.drop_left]
  rw [unblockLoop, isTag.find_start gapFree]
  simp only [isTag.find_stop, width, after, List.take_left, List.drop_left]
  split <;> rfl

theorem unblockLoop_noLinkTag {rest : Text} (untagged : NoLinkTag rest) (rounds : ℕ) :
    unblockLoop rounds rest = (rest, 0) := by
  cases rounds with
  | zero => rfl
  | succ rounds =>
      rw [unblockLoop]
      cases found : find linkStart (toLower rest) with
      | none => rfl
      | some start =>
          rcases exists_of_find found with ⟨before, after, isLower, rfl⟩
          have begins : linkStart <+: toLower (rest.drop before.length) := by
            rw [toLower_drop, isLower, List.append_assoc, List.drop_left]
            exact List.prefix_append _ _
          have unclosed := untagged (rest.take before.length) _ (by simp) begins
          have missing : find (ascii ">") (rest.drop before.length) = none :=
            find_singleton_none unclosed
          simp only [findFrom, missing, Option.map_none]

/-- The document with its tags staged, and how many have been edited. -/
def stagePiece (piece : Text × Text) : Text × Text :=
  (piece.1, if isBlocking piece.2 then stageTag piece.2 else piece.2)

def joinPieces (pieces : List (Text × Text)) (tail : Text) : Text :=
  pieces.flatMap (fun piece => piece.1 ++ piece.2) ++ tail

theorem Scanned.eq_joinPieces {text tail : Text} {pieces : List (Text × Text)}
    (scanned : Scanned text pieces tail) : text = joinPieces pieces tail := by
  induction scanned with
  | tail untagged => rfl
  | tag gapFree isTag later ih => simp [joinPieces, ih]

theorem Scanned.isLinkTag {text tail : Text} {pieces : List (Text × Text)}
    (scanned : Scanned text pieces tail) : ∀ piece ∈ pieces, IsLinkTag piece.2 := by
  induction scanned with
  | tail untagged => simp
  | tag gapFree isTag later ih => exact List.forall_mem_cons.mpr ⟨isTag, ih⟩

theorem Scanned.unblockLoop_eq {text tail : Text} {pieces : List (Text × Text)} {rounds : ℕ}
    (scanned : Scanned text pieces tail) (enough : pieces.length ≤ rounds) :
    unblockLoop rounds text =
      (joinPieces (pieces.map stagePiece) tail, pieces.countP fun piece => isBlocking piece.2) := by
  induction scanned generalizing rounds with
  | tail untagged => exact unblockLoop_noLinkTag untagged rounds
  | tag gapFree isTag later ih =>
      cases rounds with
      | zero => simp at enough
      | succ rounds =>
          rw [unblockLoop_tag gapFree isTag, ih (by simpa using enough)]
          simp [joinPieces, stagePiece, List.countP_cons]

theorem exists_scanned (text : Text) : ∃ pieces tail, Scanned text pieces tail := by
  induction length : text.length using Nat.strong_induction_on generalizing text with
  | h size ih =>
      cases found : find linkStart (toLower text) with
      | none =>
          refine ⟨[], text, Scanned.tail ?_⟩
          rintro gap tag rfl begins
          rw [find_eq_none_iff, toLower_append] at found
          exact absurd (begins.isInfix.trans (List.suffix_append _ _).isInfix) found
      | some start =>
          have gapFree : ¬linkStart <:+: toLower (text.take start) := by
            rw [toLower_take]
            exact not_infix_take_of_find (by decide) found
          rcases find_eq_some_iff.mp found with ⟨before, after, isLower, rfl, first⟩
          have begins : linkStart <+: toLower (text.drop before.length) := by
            rw [toLower_drop, isLower, List.append_assoc, List.drop_left]
            exact List.prefix_append _ _
          by_cases closed : 62 ∈ text.drop before.length
          · rcases List.eq_append_cons_of_mem closed with ⟨inner, rest, isRest, unclosed⟩
            have isInner : linkStart <+: toLower inner := by
              rw [isRest, toLower_append] at begins
              apply prefix_of_prefix_append (show (62 : UInt8) ∉ linkStart by decide) _ begins
              simp [toLower, tolower_eq_iff]
            have isText : text = text.take before.length ++ (inner ++ [62] ++ rest) := by
              rw [List.append_assoc, List.singleton_append, ← isRest, List.take_append_drop]
            have shorter : rest.length < size := by
              have lengths := congrArg List.length isText
              simp only [List.length_append, List.length_singleton] at lengths
              omega
            rcases ih rest.length shorter rest rfl with ⟨pieces, tail, scanned⟩
            rw [isText]
            exact ⟨_, tail, Scanned.tag gapFree ⟨inner, rfl, unclosed, isInner⟩ scanned⟩
          · refine ⟨[], text, Scanned.tail ?_⟩
            -- what begins like a tag is not before the first such text
            rintro gap tag rfl ⟨more, isTag⟩ isClosed
            have later := first (toLower gap) more (by rw [toLower_append, ← isTag]; simp)
            rw [length_toLower] at later
            apply closed
            have inside := List.drop_subset_drop_left (gap ++ tag) later
            rw [List.drop_left] at inside
            exact inside isClosed

/-- The attributes stand before the end of the tag, which is `>` or `/>`. -/
theorem IsLinkTag.exists_stageTag {tag : Text} (isTag : IsLinkTag tag) :
    ∃ front closing, tag = front ++ closing ∧ linkStart <+: toLower front ∧ 62 ∉ front ∧
      (closing = ascii ">" ∨ closing = ascii "/>") ∧
      stageTag tag = front ++ stagingAttributes ++ closing := by
  rcases isTag with ⟨inner, rfl, unclosed, begins⟩
  rcases List.eq_nil_or_concat' inner with rfl | ⟨front, c, rfl⟩
  · simp [toLower, linkStart, ascii] at begins
  · have last : (front ++ [c] ++ [62]).length - 1 = front.length + 1 := by simp
    have before : (front ++ [c] ++ [62])[front.length]? = some c := by simp
    by_cases slash : c = 47
    · subst slash
      refine ⟨front, ascii "/>", by simp [ascii], ?_, ?_, Or.inr rfl, ?_⟩
      · rw [toLower_append] at begins
        have ends : ∀ d ∈ (toLower [47]).head?, d = 47 := by simp [toLower, tolower]
        exact prefix_of_prefix_append (by decide) ends begins
      · exact fun inside => unclosed (by simp [inside])
      · simp [stageTag, ascii]
    · refine ⟨front ++ [c], ascii ">", rfl, begins, unclosed, Or.inl rfl, ?_⟩
      simp only [stageTag, last, Nat.add_sub_cancel, before, Option.some.injEq, slash, and_false,
        if_false]
      have length : front.length + 1 = (front ++ [c]).length := by simp
      rw [length, List.take_left, List.drop_left]
      rfl

theorem IsLinkTag.isLinkTag_stageTag {tag : Text} (isTag : IsLinkTag tag) :
    IsLinkTag (stageTag tag) := by
  rcases isTag.exists_stageTag with ⟨front, closing, _, begins, unclosed, isClosing, isStaged⟩
  have attributes : 62 ∉ stagingAttributes := by decide
  have begins (more : Text) : linkStart <+: toLower (front ++ more) := by
    rw [toLower_append]
    exact begins.trans (List.prefix_append _ _)
  rw [isStaged]
  rcases isClosing with rfl | rfl
  · exact ⟨front ++ stagingAttributes, rfl, by simp [unclosed, attributes], begins _⟩
  · refine ⟨front ++ (stagingAttributes ++ ascii "/"), by simp [ascii], ?_, begins _⟩
    simp [unclosed, attributes, ascii]

theorem IsLinkTag.isBlocking_stageTag {tag : Text} (isTag : IsLinkTag tag) :
    isBlocking (stageTag tag) = false := by
  rcases isTag.exists_stageTag with ⟨front, closing, _, _, _, _, isStaged⟩
  have media : ascii "media=" <:+: toLower (stageTag tag) := by
    have inside : ascii "media=" <:+: toLower stagingAttributes := by decide
    rw [isStaged, toLower_append, toLower_append]
    exact inside.trans ⟨toLower front, toLower closing, rfl⟩
  have found : (find (ascii "media=") (toLower (stageTag tag))).isSome = true := by
    rw [Option.isSome_iff_ne_none, Ne, find_eq_none_iff]
    exact not_not_intro media
  simp [isBlocking, found]

theorem IsLinkTag.stagePiece {tag : Text} (isTag : IsLinkTag tag) (gap : Text) :
    IsLinkTag (stagePiece (gap, tag)).2 ∧ isBlocking (stagePiece (gap, tag)).2 = false := by
  cases blocking : isBlocking tag with
  | false => simp [Demo.stagePiece, blocking, isTag]
  | true =>
      simp [Demo.stagePiece, blocking, isTag.isLinkTag_stageTag, isTag.isBlocking_stageTag]

/-- The staged document has the same tags, and none of them is blocking. -/
theorem Scanned.map_stagePiece {text tail : Text} {pieces : List (Text × Text)}
    (scanned : Scanned text pieces tail) :
    Scanned (joinPieces (pieces.map stagePiece) tail) (pieces.map stagePiece) tail ∧
      ∀ piece ∈ pieces.map stagePiece, isBlocking piece.2 = false := by
  induction scanned with
  | tail untagged => exact ⟨Scanned.tail untagged, by simp⟩
  | @tag gap tag rest tail pieces gapFree isTag later ih =>
      rcases ih with ⟨later, unblocked⟩
      rcases isTag.stagePiece gap with ⟨isStaged, freed⟩
      have isText : joinPieces (((gap, tag) :: pieces).map Demo.stagePiece) tail =
          gap ++ ((Demo.stagePiece (gap, tag)).2 ++
            joinPieces (pieces.map Demo.stagePiece) tail) := by
        simp [joinPieces, Demo.stagePiece]
      rw [isText]
      exact ⟨Scanned.tag gapFree isStaged later, List.forall_mem_cons.mpr ⟨freed, unblocked⟩⟩

theorem Scanned.length_le {text tail : Text} {pieces : List (Text × Text)}
    (scanned : Scanned text pieces tail) : pieces.length ≤ text.length := by
  induction scanned with
  | tail untagged => exact Nat.zero_le _
  | tag gapFree isTag later ih =>
      have positive := List.length_pos_iff.mpr isTag.ne_nil
      simp only [List.length_cons, List.length_append]
      omega

theorem Scanned.unblockStylesheets_eq {text tail : Text} {pieces : List (Text × Text)}
    (scanned : Scanned text pieces tail) :
    unblockStylesheets text =
      (joinPieces (pieces.map stagePiece) tail, pieces.countP fun piece => isBlocking piece.2) :=
  scanned.unblockLoop_eq scanned.length_le

theorem unblockStylesheets_twice (html : Text) :
    unblockStylesheets (unblockStylesheets html).1 = ((unblockStylesheets html).1, 0) := by
  rcases exists_scanned html with ⟨pieces, tail, scanned⟩
  rcases scanned.map_stagePiece with ⟨again, unblocked⟩
  have same : (pieces.map stagePiece).map stagePiece = (pieces.map stagePiece).map id := by
    apply List.map_congr_left
    intro piece isPiece
    simp [stagePiece, unblocked piece isPiece]
  have none : (pieces.map stagePiece).countP (fun piece => isBlocking piece.2) = 0 := by
    apply List.countP_eq_zero.mpr
    intro piece isPiece
    simp [unblocked piece isPiece]
  rw [scanned.unblockStylesheets_eq, again.unblockStylesheets_eq, same, List.map_id, none]

end Scan

section Specification

/-- The value of the first `rel` attribute has the word, between spaces. -/
def isStylesheet (tag : Text) : Bool :=
  match attributeValue tag (ascii "rel") with
  | none => false
  | some value => ((toLower value).splitOnP isSpace).contains (ascii "stylesheet")

def hasMedia (tag : Text) : Bool := (attributeValue tag (ascii "media")).isSome

/-- The tag holds up the rendering: it is a stylesheet, for every medium. -/
def holdsUp (tag : Text) : Bool := isStylesheet tag && !hasMedia tag

def addedAttributes : List Attribute :=
  [⟨ascii "media", true, ascii "print"⟩, ⟨ascii "onload", true, ascii "this.media='all'"⟩]

/-- The text of the two attributes is put into the tag, and they become its last attributes. -/
def Extended (tag extended : Text) : Prop :=
  ∃ front closing, tag = front ++ closing ∧ extended = front ++ (stagingAttributes ++ closing) ∧
    attributes extended = attributes tag ++ addedAttributes

/-- The words that the code looks for are in a tag only for the attributes that they belong to. -/
structure Plain (tag : Text) : Prop where
  name : tagName tag = ascii "link"
  closes : (stateAfter .beforeName (attributeText tag).dropLast).takesAttribute = true
  stylesheet : isStylesheet tag = false → ∀ entry ∈ attributes tag,
    ¬ascii "stylesheet" <:+: entry.name ∧ ¬ascii "stylesheet" <:+: toLower entry.value
  media : hasMedia tag = false → ∀ entry ∈ attributes tag,
    ¬ascii "media" <:+: entry.name ∧ ¬ascii "media=" <:+: toLower entry.value
  assigned : ∀ entry ∈ attributes tag, entry.name = ascii "media" → entry.assigned = true

/-- How a tag, a comment, a script and the like begin and end. -/
def enclosures : List (Text × Text) :=
  [(ascii "<", ascii ">"), (ascii "<!--", ascii "-->"), (ascii "<script", ascii "</script"),
    (ascii "<style", ascii "</style"), (ascii "<textarea", ascii "</textarea"),
    (ascii "<title", ascii "</title")]

/-- Nothing that begins in the text is open at its end, so a tag can follow. -/
def EndsOutside (text : Text) : Prop :=
  ∀ enclosure ∈ enclosures, ∀ after ∈ (toLower text).tails,
    enclosure.1 <+: after → enclosure.2 <:+: after

instance decidableEndsOutside (text : Text) : Decidable (EndsOutside text) :=
  inferInstanceAs (Decidable (∀ enclosure ∈ enclosures, ∀ after ∈ (toLower text).tails,
    enclosure.1 <+: after → enclosure.2 <:+: after))

/-- The texts that the scan takes for link tags are the link tags of the document. -/
structure PlainDocument (body : Text) (pieces : List (Text × Text)) (tail : Text) : Prop where
  scanned : Scanned body pieces tail
  outside : ∀ piece ∈ pieces, EndsOutside piece.1
  plain : ∀ piece ∈ pieces, Plain piece.2

end Specification

section Agreement

variable {tag : Text}

theorem infix_of_mem_splitOnP {α : Type} {p : α → Bool} {word text : List α}
    (isWord : word ∈ text.splitOnP p) : word <:+: text := by
  have parts : (∀ word ∈ text.splitOnP p, word <:+: text) ∧
      ∀ word ∈ (text.splitOnP p).head?, word <+: text := by
    clear isWord
    induction text with
    | nil => simp
    | cons c text ih =>
        rcases ih with ⟨inside, begins⟩
        rw [List.splitOnP_cons_eq_if_modifyHead]
        split
        · constructor
          · rintro word (_ | ⟨_, isWord⟩)
            · exact List.nil_infix
            · exact List.infix_cons (inside word isWord)
          · simp
        · cases isSplit : text.splitOnP p with
          | nil => simp
          | cons first others =>
              rw [isSplit] at inside begins
              have isFirst : c :: first <+: c :: text :=
                List.cons_prefix_cons.mpr ⟨rfl, begins first rfl⟩
              constructor
              · rintro word (_ | ⟨_, isWord⟩)
                · exact isFirst.isInfix
                · exact List.infix_cons (inside word (List.mem_cons_of_mem _ isWord))
              · rintro word isHead
                obtain rfl : c :: first = word := by simpa using isHead
                exact isFirst
  exact parts.1 word isWord

theorem span_concat {p : UInt8 → Bool} {c : UInt8} (stops : p c = false) (text : Text) :
    (text ++ [c]).takeWhile p = text.takeWhile p ∧
      (text ++ [c]).dropWhile p = text.dropWhile p ++ [c] := by
  induction text with
  | nil => simp [stops]
  | cons d text ih => by_cases more : p d <;> simp [more, ih]

/-- A link tag with the text of its attributes. -/
theorem IsLinkTag.exists_text (isTag : IsLinkTag tag) (isLink : tagName tag = ascii "link") :
    ∃ name rest, tag = 60 :: (name ++ (rest ++ [62])) ∧ toLower name = ascii "link" ∧
      (∀ c ∈ name, endsName c = false) ∧ (∀ c ∈ (rest ++ [62]).head?, endsName c = true) := by
  rcases isTag with ⟨inner, rfl, _, begins⟩
  cases inner with
  | nil => simp [toLower, linkStart, ascii] at begins
  | cons c inner =>
      obtain rfl : c = 60 := by
        have first : 60 = tolower c := (List.cons_prefix_cons.mp begins).1
        exact (tolower_eq_iff (by decide)).mp first.symm
      rcases @span_concat (!endsName ·) 62 (by decide) inner with ⟨isName, after⟩
      refine ⟨inner.takeWhile (!endsName ·), inner.dropWhile (!endsName ·), ?_, ?_, ?_, ?_⟩
      · rw [← List.append_assoc, List.takeWhile_append_dropWhile]
        rfl
      · rw [← isName]
        exact isLink
      · intro c inside
        simpa using List.mem_takeWhile_imp inside
      · intro c isHead
        have first := List.head?_dropWhile_not (!endsName ·) (inner ++ [62])
        rw [after, isHead] at first
        simpa using first

theorem isBlocking_iff : isBlocking tag = true ↔
    ascii "stylesheet" <:+: toLower tag ∧ ¬ascii "media=" <:+: toLower tag := by
  rw [isBlocking, Bool.and_eq_true, Option.isNone_iff_eq_none, find_eq_none_iff,
    Option.isSome_iff_ne_none, Ne, find_eq_none_iff, not_not]

theorem attributeValue_eq_some {name value : Text} (isValue : attributeValue tag name = some value) :
    ∃ entry ∈ attributes tag, entry.name = name ∧ entry.value = value := by
  rcases Option.map_eq_some_iff.mp isValue with ⟨entry, found, rfl⟩
  exact ⟨entry, List.mem_of_find?_eq_some found, by simpa using List.find?_some found, rfl⟩

theorem Plain.infix_iff {word : Text} (plain : Plain tag) (isTag : IsLinkTag tag)
    (isWord : IsWord word) (absent : ¬word <:+: linkStart) :
    word <:+: toLower tag ↔ Mentions word (attributes tag) := by
  rcases isTag.exists_text plain.name with ⟨name, rest, rfl, isLink, isName, ends⟩
  have closes := plain.closes
  rw [attributeText_cons isName ends, List.dropLast_concat] at closes
  apply infix_toLower_iff_mentions isWord isName _ ends closes
  have start : toLower (60 :: name) = linkStart := by
    rw [toLower, List.map_cons, ← toLower, isLink]
    rfl
  rwa [start]

theorem Plain.stylesheet_iff (plain : Plain tag) (isTag : IsLinkTag tag) :
    ascii "stylesheet" <:+: toLower tag ↔ isStylesheet tag = true := by
  rw [plain.infix_iff isTag ⟨by decide, by simp [delimiters, ascii], by decide⟩ (by decide)]
  constructor
  · rintro ⟨entry, isEntry, text, isText, found⟩
    by_contra other
    rcases plain.stylesheet (by simpa using other) entry isEntry with ⟨notName, notValue⟩
    simp only [Attribute.words, List.mem_cons, List.not_mem_nil, or_false] at isText
    rcases isText with rfl | rfl
    · apply notName
      apply (infix_append_iff_of_right (by decide) _).mp found
      cases entry.assigned <;> simp [ascii]
    · exact notValue found
  · intro isSheet
    rw [isStylesheet] at isSheet
    split at isSheet
    case h_1 => simp at isSheet
    case h_2 value isValue =>
      rcases attributeValue_eq_some isValue with ⟨entry, isEntry, _, rfl⟩
      refine ⟨entry, isEntry, toLower entry.value, by simp [Attribute.words], ?_⟩
      exact infix_of_mem_splitOnP (by simpa using isSheet)

theorem Plain.media_iff (plain : Plain tag) (isTag : IsLinkTag tag) :
    ascii "media=" <:+: toLower tag ↔ hasMedia tag = true := by
  rw [plain.infix_iff isTag ⟨by decide, by simp [delimiters, ascii], by decide⟩ (by decide)]
  constructor
  · rintro ⟨entry, isEntry, text, isText, found⟩
    by_contra other
    rcases plain.media (by simpa using other) entry isEntry with ⟨notName, notValue⟩
    have shorter : ascii "media" <:+: ascii "media=" := by decide
    simp only [Attribute.words, List.mem_cons, List.not_mem_nil, or_false] at isText
    rcases isText with rfl | rfl
    · apply notName
      cases assigned : entry.assigned with
      | false =>
          rw [assigned] at found
          exact shorter.trans (by simpa using found)
      | true =>
          rw [assigned] at found
          rcases List.infix_concat_iff.mp found with isEnd | inside
          · rcases isEnd with ⟨before, same⟩
            have split : ascii "media=" = ascii "media" ++ [61] := by decide
            rw [split, ← List.append_assoc] at same
            exact ⟨before, [], by simpa using List.append_cancel_right same⟩
          · exact shorter.trans inside
    · exact notValue found
  · intro isMedia
    rcases Option.isSome_iff_exists.mp isMedia with ⟨value, isValue⟩
    rcases attributeValue_eq_some isValue with ⟨entry, isEntry, isName, _⟩
    refine ⟨entry, isEntry, _, List.mem_cons_self, ?_⟩
    rw [isName, plain.assigned entry isEntry isName]
    exact List.infix_rfl

/-- In a plain tag the words that the code finds are the attributes. -/
theorem Plain.isBlocking_eq (plain : Plain tag) (isTag : IsLinkTag tag) :
    isBlocking tag = holdsUp tag := by
  rw [Bool.eq_iff_iff, isBlocking_iff, plain.stylesheet_iff isTag, plain.media_iff isTag, holdsUp,
    Bool.and_eq_true, Bool.not_eq_true', Bool.not_eq_true]

theorem attributesFrom_staging {state : TagState} (takes : state.takesAttribute = true) :
    attributesFrom state (stagingAttributes ++ ascii ">") =
      attributesFrom state (ascii ">") ++ addedAttributes := by
  cases state with
  | beforeName => rfl
  | name letters => rfl
  | afterName letters => rfl
  | beforeValue letters assigned => simp [TagState.takesAttribute] at takes
  | quoted entry double => simp [TagState.takesAttribute] at takes
  | unquoted entry => rfl

theorem attributesFrom_staging_slash {state : TagState}
    (takes : (stateAfter state [47]).takesAttribute = true) :
    attributesFrom state (stagingAttributes ++ ascii "/>") =
      attributesFrom state (ascii "/>") ++ addedAttributes := by
  cases state with
  | beforeName => rfl
  | name letters => rfl
  | afterName letters => rfl
  | beforeValue letters assigned =>
      simp [stateAfter, readAttribute, TagState.takesAttribute, isSpace] at takes
  | quoted entry double =>
      cases double <;> simp [stateAfter, readAttribute, TagState.takesAttribute] at takes
  | unquoted entry =>
      simp [stateAfter, readAttribute, TagState.takesAttribute, isSpace, Attribute.read] at takes

/-- Where the attributes of a tag can be continued, the tag can be extended. -/
theorem attributes_extended {name rest closing : Text} (isName : ∀ c ∈ name, endsName c = false)
    (ends : ∀ c ∈ (rest ++ closing).head?, endsName c = true)
    (continued : attributesFrom (stateAfter .beforeName rest) (stagingAttributes ++ closing) =
      attributesFrom (stateAfter .beforeName rest) closing ++ addedAttributes) :
    attributes (60 :: (name ++ (rest ++ (stagingAttributes ++ closing)))) =
      attributes (60 :: (name ++ (rest ++ closing))) ++ addedAttributes := by
  have endsToo : ∀ c ∈ (rest ++ (stagingAttributes ++ closing)).head?, endsName c = true := by
    cases rest with
    | nil =>
        rintro c ⟨⟩
        decide
    | cons c rest => exact ends
  rw [attributes, attributes, attributeText_cons isName ends, attributeText_cons isName endsToo,
    attributesFrom_append, continued, attributesFrom_append, List.append_assoc]

theorem Plain.extended (plain : Plain tag) (isTag : IsLinkTag tag) :
    Extended tag (stageTag tag) := by
  rcases isTag.exists_stageTag with ⟨front, closing, isText, _, _, isClosing, isStaged⟩
  rcases isTag.exists_text plain.name with ⟨name, rest, rfl, _, isName, ends⟩
  have closes := plain.closes
  rw [attributeText_cons isName ends, List.dropLast_concat] at closes
  rw [List.append_assoc] at isStaged
  refine ⟨front, closing, isText, isStaged, ?_⟩
  rw [isStaged]
  rcases isClosing with rfl | rfl
  · obtain rfl : 60 :: (name ++ rest) = front := by
      apply List.append_cancel_right
      rw [← isText]
      simp [ascii]
    have extended := attributes_extended isName ends (attributesFrom_staging closes)
    simpa [ascii] using extended
  · have isFront : front ++ [47] = 60 :: (name ++ rest) := by
      apply @List.append_cancel_right _ _ [62]
      simpa [ascii] using isText.symm
    -- the slash is not in the name of the tag
    rcases List.eq_nil_or_concat' rest with rfl | ⟨before, c, rfl⟩
    · have slash : 47 ∈ 60 :: (name ++ []) := by
        rw [← isFront]
        simp
      have inName : 47 ∈ name := by simpa using slash
      exact absurd (isName 47 inName) (by decide)
    · rw [← List.append_assoc, ← List.cons_append] at isFront
      obtain ⟨rfl, isSlash⟩ := List.append_inj' isFront rfl
      obtain rfl : 47 = c := by simpa using isSlash
      rw [List.append_assoc] at ends
      rw [stateAfter_append] at closes
      have extended := attributes_extended isName ends (attributesFrom_staging_slash closes)
      simpa [ascii] using extended

end Agreement

section Response

def lengthName : Text := ascii "content-length"

def contentLength (length : ℕ) : Text := ascii "Content-Length: " ++ decimal length

def setContentLength (headers : Text) (length : ℕ) : Text :=
  match find (crlf ++ fieldKey lengthName) (toLower headers) with
  | none => headers ++ (crlf ++ contentLength length)
  | some start =>
      let stop := (findFrom crlf (start + 2) headers).getD headers.length
      headers.take (start + 2) ++ contentLength length ++ headers.drop stop

def stageHtmlResponse (response : Text) : Text × ℕ :=
  match find (crlf ++ crlf) response with
  | none => (response, 0)
  | some stop =>
      if find (ascii "text/html") (toLower (headerValue response (ascii "content-type"))) = none
      then (response, 0)
      else if headerValue response (ascii "content-encoding") ≠ [] ∨
          headerValue response (ascii "transfer-encoding") ≠ [] then (response, 0)
      else
        let headers := response.take stop
        let staged := unblockStylesheets (response.drop (stop + 4))
        if staged.2 = 0 then (response, 0)
        else (setContentLength headers staged.1.length ++ (crlf ++ crlf ++ staged.1), staged.2)

theorem return_not_mem_decimal (number : ℕ) : 13 ∉ decimal number := by
  intro isReturn
  have digit := digit_of_mem_decimal isReturn
  simp at digit

theorem isLine_contentLength (length : ℕ) : IsLine (contentLength length) := by
  rw [contentLength, isLine_append_iff_of_left (by decide)]
  intro broken
  exact return_not_mem_decimal length (broken.subset (by simp [crlf]))

theorem contentLength_ne_nil (length : ℕ) : contentLength length ≠ [] := by
  simp [contentLength, ascii]

theorem isNamed_contentLength (length : ℕ) : isNamed lengthName (contentLength length) = true := by
  have split : contentLength length =
      ascii "Content-Length" ++ 58 :: (ascii " " ++ decimal length) := by
    simp [contentLength, ascii]
  rw [split]
  apply isNamed_append <;> decide

/-- The field gets the length of the staged body, at its place or at the end. -/
theorem exists_setContentLength (before : Message) (length : ℕ)
    (single : (before.fields.filter (isNamed lengthName)).length ≤ 1) :
    ∃ fields, setContentLength before.head length = before.startLine ++ fieldText fields ∧
      (∀ field ∈ fields, IsLine field ∧ field ≠ []) ∧
      fields.filter (isNamed lengthName) = [contentLength length] ∧
      (fields.filter fun field => !isNamed lengthName field) =
        before.fields.filter fun field => !isNamed lengthName field := by
  have isName : IsName lengthName := by decide
  have isNew := isNamed_contentLength length
  have newLine := isLine_contentLength length
  have newNonempty := contentLength_ne_nil length
  have areFields (field : Text) (isField : field ∈ before.fields) : IsLine field ∧ field ≠ [] :=
    ⟨before.isLine_fields field isField, before.fields_ne_nil field isField⟩
  unfold setContentLength
  cases first : before.fields.find? (isNamed lengthName) with
  | none =>
      have others : ∀ field ∈ before.fields, isNamed lengthName field = false := by
        simpa using first
      rw [Message.head, isName.find_none before.isLine_startLine before.isLine_fields others]
      refine ⟨before.fields ++ [contentLength length], by simp, ?_, ?_, by simp [isNew]⟩
      · simp only [List.mem_append, List.mem_singleton]
        rintro field (isField | rfl)
        · exact areFields field isField
        · exact ⟨newLine, newNonempty⟩
      · have none : before.fields.filter (isNamed lengthName) = [] := by
          simpa [List.filter_eq_nil_iff] using others
        simp [none, isNew]
  | some field =>
      rcases List.find?_eq_some_iff_append.mp first with ⟨named, earlier, later, isFields, others⟩
      have others : ∀ other ∈ earlier, isNamed lengthName other = false := by simpa using others
      have isLine : IsLine field := before.isLine_fields field (by simp [isFields])
      have earlierLines : ∀ other ∈ earlier, IsLine other := by
        intro other isEarlier
        exact before.isLine_fields other (by simp [isFields, isEarlier])
      have none : earlier.filter (isNamed lengthName) = [] := by
        simpa [List.filter_eq_nil_iff] using others
      have last : later.filter (isNamed lengthName) = [] := by
        rw [isFields] at single
        simpa [none, named] using single
      refine ⟨earlier ++ contentLength length :: later, ?_, ?_, ?_, ?_⟩
      · have split (rest : List Text) : before.startLine ++ fieldText (earlier ++ rest) =
            before.startLine ++ fieldText earlier ++ fieldText rest := by simp
        rw [Message.head, isFields,
          isName.find_some before.isLine_startLine earlierLines others named, split, split]
        generalize before.startLine ++ fieldText earlier = front
        have stop : (findFrom crlf (front.length + 2) (front ++ fieldText (field :: later))).getD
            (front ++ fieldText (field :: later)).length = front.length + 2 + field.length :=
          findFrom_crlf isLine (Nat.zero_le _)
        have start : (front ++ fieldText (field :: later)).take (front.length + 2) =
            front ++ crlf := by
          have length : front.length + 2 = (front ++ crlf).length := by simp [crlf]
          rw [length, fieldText_cons, ← List.append_assoc, List.take_left]
        simp only [stop, start, drop_fieldText le_rfl]
        simp
      · simp only [List.mem_append, List.mem_cons]
        rintro other (isEarlier | rfl | isLater)
        · exact areFields other (by simp [isFields, isEarlier])
        · exact ⟨newLine, newNonempty⟩
        · exact areFields other (by simp [isFields, isLater])
      · simp [none, last, isNew]
      · simp [isFields, isNew, named]

/-- What happens to the link tags that hold up the rendering, and to the others. -/
def StagedPiece (piece staged : Text × Text) : Prop :=
  staged.1 = piece.1 ∧
    if holdsUp piece.2 then Extended piece.2 staged.2 else staged.2 = piece.2

/-- What staging does to the message, if these are the link tags of its body. -/
structure Staged (before after : Message) (pieces : List (Text × Text)) (tail : Text)
    (count : ℕ) : Prop where
  startLine : after.startLine = before.startLine
  body : ∃ staged, List.Forall₂ StagedPiece pieces staged ∧ after.body = joinPieces staged tail
  count : count = pieces.countP fun piece => holdsUp piece.2
  length : after.fields.filter (isNamed lengthName) = [contentLength after.body.length]
  others : (after.fields.filter fun field => !isNamed lengthName field) =
    before.fields.filter fun field => !isNamed lengthName field

theorem PlainDocument.stagedPieces {body tail : Text} {pieces : List (Text × Text)}
    (document : PlainDocument body pieces tail) :
    List.Forall₂ StagedPiece pieces (pieces.map stagePiece) := by
  rw [List.forall₂_map_right_iff, List.forall₂_same]
  intro piece isPiece
  have plain := document.plain piece isPiece
  have isTag := document.scanned.isLinkTag piece isPiece
  refine ⟨rfl, ?_⟩
  rw [stagePiece, plain.isBlocking_eq isTag]
  split
  · exact plain.extended isTag
  · rfl

theorem PlainDocument.unblockStylesheets_eq {body tail : Text} {pieces : List (Text × Text)}
    (document : PlainDocument body pieces tail) :
    unblockStylesheets body =
      (joinPieces (pieces.map stagePiece) tail, pieces.countP fun piece => holdsUp piece.2) := by
  have same : (pieces.countP fun piece => isBlocking piece.2) =
      pieces.countP fun piece => holdsUp piece.2 := by
    apply List.countP_congr
    intro piece isPiece
    rw [(document.plain piece isPiece).isBlocking_eq (document.scanned.isLinkTag piece isPiece)]
  rw [document.scanned.unblockStylesheets_eq, same]

theorem stageHtmlResponse_text (message : Message) :
    stageHtmlResponse message.text = (message.text, 0) ∨
    (unblockStylesheets message.body).2 ≠ 0 ∧
    stageHtmlResponse message.text =
      (setContentLength message.head (unblockStylesheets message.body).1.length ++
        (crlf ++ crlf ++ (unblockStylesheets message.body).1),
      (unblockStylesheets message.body).2) := by
  have head : message.text.take message.head.length = message.head := List.take_left
  have body : message.text.drop (message.head.length + 4) = message.body := by
    rw [Message.text, ← List.drop_drop, List.drop_left]
    rfl
  simp only [stageHtmlResponse, message.find_blank, head, body]
  split
  · exact Or.inl rfl
  · split
    · exact Or.inl rfl
    · split
      · exact Or.inl rfl
      · rename_i edited
        exact Or.inr ⟨edited, rfl⟩

/-- A response with a document. -/
def htmlResponse (document : Text) : Message where
  startLine := ascii "HTTP/1.1 200 OK"
  fields := [ascii "Content-Type: text/html", ascii "Content-Length: 32"]
  body := document
  isLine_startLine := isLine_ok
  isLine_fields := by decide
  fields_ne_nil := by decide

/-- A stylesheet after other markup, and a link that is none. -/
def blockingPieces : List (Text × Text) :=
  [(ascii "<title>A</title>", ascii "<link rel=stylesheet href=a.css>"),
    ([], ascii "<link rel=\"icon\" href=\"a.ico\"/>")]

end Response

section Spelling

def spacedMedia : Text := ascii "<link rel=stylesheet media = print href=a.css>"

end Spelling

end PracticalCrypto.Surf.Demo
