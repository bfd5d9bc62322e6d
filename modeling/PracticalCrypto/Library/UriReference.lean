import PracticalCrypto.Library.HttpText

/-!
# URI references

References and their resolution against a base, as RFC 3986 describes them: the components are
those of the regular expression of appendix B, which every text matches, and a reference is
resolved by the algorithm of section 5.2.2 with `remove_dot_segments` of section 5.2.4.
-/

namespace PracticalCrypto.UriReference

open TextSearch HttpText

section Components

structure Reference where
  scheme : Option Text
  authority : Option Text
  path : Text
  query : Option Text
deriving DecidableEq

/-- The longest part that has none of the given characters, and the rest. -/
def splitAtAny (stops text : Text) : Text × Text :=
  (text.takeWhile (· ∉ stops), text.dropWhile (· ∉ stops))

def splitScheme (text : Text) : Option Text × Text :=
  let parts := splitAtAny (ascii ":/?#") text
  if parts.1 ≠ [] ∧ parts.2.head? = some 58 then (some parts.1, parts.2.drop 1) else (none, text)

def splitAuthority (text : Text) : Option Text × Text :=
  if ascii "//" <+: text then
    let parts := splitAtAny (ascii "/?#") (text.drop 2)
    (some parts.1, parts.2)
  else (none, text)

/-- The query, if the text begins with one. -/
def takeQuery (text : Text) : Option Text :=
  if text.head? = some 63 then some (splitAtAny (ascii "#") (text.drop 1)).1 else none

/-- The components of a reference whose path and query are given as one text. -/
def Reference.ofText (scheme authority : Option Text) (text : Text) : Reference :=
  let parts := splitAtAny (ascii "?#") text
  { scheme, authority, path := parts.1, query := takeQuery parts.2 }

/-- The components of a reference, without its fragment. -/
def parse (text : Text) : Reference :=
  let afterScheme := (splitScheme text).2
  .ofText (splitScheme text).1 (splitAuthority afterScheme).1 (splitAuthority afterScheme).2

def Reference.queryText (reference : Reference) : Text :=
  match reference.query with
  | none => []
  | some query => 63 :: query

/-- The authority without the user information. -/
def hostAndPort (authority : Text) : Text :=
  if 64 ∈ authority then (authority.dropWhile (· ≠ 64)).drop 1 else authority

/-- The host of an authority, which is an address in brackets or ends at the port. -/
def hostOf (authority : Text) : Text :=
  if (hostAndPort authority).head? = some 91 then
    (hostAndPort authority).takeWhile (· ≠ 93) ++ ascii "]"
  else (hostAndPort authority).takeWhile (· ≠ 58)

theorem hostOf_of_named {authority : Text} (noBracket : 91 ∉ authority) :
    hostOf authority = (hostAndPort authority).takeWhile (· ≠ 58) := by
  apply if_neg
  intro bracket
  apply noBracket
  have inside := List.mem_of_mem_head? bracket
  rw [hostAndPort] at inside
  split at inside
  case isTrue => exact (List.dropWhile_suffix _).subset (List.mem_of_mem_drop inside)
  case isFalse => exact inside

theorem splitAtAny_append (stops text : Text) :
    (splitAtAny stops text).1 ++ (splitAtAny stops text).2 = text :=
  List.takeWhile_append_dropWhile

theorem head_splitAtAny {stops text rest : Text} {c : UInt8}
    (isRest : (splitAtAny stops text).2 = c :: rest) : c ∈ stops := by
  have fails := List.head?_dropWhile_not (fun c => decide (c ∉ stops)) text
  rw [show text.dropWhile (fun c => decide (c ∉ stops)) = c :: rest from isRest] at fails
  simpa using fails

theorem not_mem_splitAtAny {stops text : Text} {c : UInt8} (isStop : c ∈ stops) :
    c ∉ (splitAtAny stops text).1 := by
  intro inside
  simpa [isStop] using List.mem_takeWhile_imp inside

theorem Reference.ofText_pathQuery {text : Text} (noFragment : 35 ∉ text)
    (scheme authority : Option Text) :
    (ofText scheme authority text).path ++ (ofText scheme authority text).queryText = text := by
  have whole := splitAtAny_append (ascii "?#") text
  have query : (ofText scheme authority text).queryText = (splitAtAny (ascii "?#") text).2 := by
    cases isRest : (splitAtAny (ascii "?#") text).2 with
    | nil => simp [ofText, queryText, takeQuery, isRest]
    | cons c rest =>
        rw [isRest] at whole
        have plain : 35 ∉ c :: rest := by
          intro inside
          apply noFragment
          rw [← whole]
          exact List.mem_append_right _ inside
        obtain rfl : c = 63 := by
          have isStop : c = 63 ∨ c = 35 := by simpa [ascii] using head_splitAtAny isRest
          exact isStop.resolve_right fun isHash => plain (by simp [isHash])
        have all : rest.takeWhile (fun c => decide (c ∉ ascii "#")) = rest := by
          rw [List.takeWhile_eq_self_iff]
          intro d inside
          simp [ascii]
          rintro rfl
          simp_all
        simp only [ofText, queryText, takeQuery, isRest, List.head?_cons, if_true,
          List.drop_one, List.tail_cons]
        simp only [splitAtAny, all]
  rw [query]
  exact whole

theorem splitScheme_cases (text : Text) :
    (∃ scheme rest, scheme ≠ [] ∧ (∀ c ∈ ascii ":/?#", c ∉ scheme) ∧
      text = scheme ++ 58 :: rest ∧ splitScheme text = (some scheme, rest)) ∨
    splitScheme text = (none, text) := by
  rw [splitScheme]
  split
  case isTrue hasScheme =>
    rcases hasScheme with ⟨nonempty, colon⟩
    rcases List.head?_eq_some_iff.mp colon with ⟨rest, isRest⟩
    refine Or.inl ⟨_, rest, nonempty, fun c isStop => not_mem_splitAtAny isStop, ?_,
      by simp [isRest]⟩
    rw [← isRest]
    exact (splitAtAny_append _ text).symm
  case isFalse => exact Or.inr rfl

end Components

section Resolution

/-- The first segment of a path, with the slash before it. -/
def firstSegment (path : Text) : Text := path.take 1 ++ (path.drop 1).takeWhile (· ≠ 47)

/-- The path without its last segment and the slash before it. -/
def dropLastSegment (path : Text) : Text := ((path.reverse.dropWhile (· ≠ 47)).drop 1).reverse

/-- The loop of `remove_dot_segments`. Every round shortens the input. -/
def removeDotsLoop : ℕ → Text → Text → Text
  | 0, _, output => output
  | rounds + 1, input, output =>
      if input = [] then output
      else if ascii "../" <+: input then removeDotsLoop rounds (input.drop 3) output
      else if ascii "./" <+: input then removeDotsLoop rounds (input.drop 2) output
      else if ascii "/./" <+: input then removeDotsLoop rounds (input.drop 2) output
      else if input = ascii "/." then removeDotsLoop rounds (ascii "/") output
      else if ascii "/../" <+: input then
        removeDotsLoop rounds (input.drop 3) (dropLastSegment output)
      else if input = ascii "/.." then
        removeDotsLoop rounds (ascii "/") (dropLastSegment output)
      else if input = ascii "." ∨ input = ascii ".." then output
      else
        removeDotsLoop rounds (input.drop (firstSegment input).length)
          (output ++ firstSegment input)

def removeDotSegments (path : Text) : Text := removeDotsLoop path.length path []

/-- The path of a relative reference, in place of the last segment of the base. -/
def merge (base reference : Reference) : Text :=
  if base.authority ≠ none ∧ base.path = [] then 47 :: reference.path
  else (base.path.reverse.dropWhile (· ≠ 47)).reverse ++ reference.path

def resolve (base reference : Reference) : Reference :=
  if reference.scheme ≠ none then
    { reference with path := removeDotSegments reference.path }
  else if reference.authority ≠ none then
    { reference with scheme := base.scheme, path := removeDotSegments reference.path }
  else
    { scheme := base.scheme
      authority := base.authority
      path :=
        if reference.path = [] then base.path
        else if reference.path.head? = some 47 then removeDotSegments reference.path
        else removeDotSegments (merge base reference)
      query :=
        if reference.path = [] ∧ reference.query = none then base.query else reference.query }

/-- No segment of the path is `.` or `..`. -/
def DotFree (path : Text) : Prop := ∀ segment ∈ path.splitOn 47,
  segment ≠ ascii "." ∧ segment ≠ ascii ".."

instance decidableDotFree (path : Text) : Decidable (DotFree path) :=
  inferInstanceAs (Decidable (∀ segment ∈ path.splitOn 47, _))

theorem DotFree.of_append_cons {front rest : Text} (dotFree : DotFree (front ++ 47 :: rest)) :
    DotFree rest := by
  intro segment isSegment
  apply dotFree segment
  rw [List.splitOn_append_cons_self]
  exact List.mem_append_right _ isSegment

theorem dotFree_cons_iff {rest : Text} : DotFree (47 :: rest) ↔ DotFree rest := by
  have split : (47 :: rest).splitOn 47 = [] :: rest.splitOn 47 :=
    List.splitOn_append_cons_self [] rest
  rw [DotFree, split, List.forall_mem_cons]
  exact and_iff_right (by decide)

theorem DotFree.head {dots rest : Text} (dotFree : DotFree rest)
    (isDots : dots = ascii "." ∨ dots = ascii "..") :
    rest ≠ dots ∧ ¬dots ++ ascii "/" <+: rest := by
  have plain : 47 ∉ dots := by
    rcases isDots with rfl | rfl <;> decide
  have noDots : dots ∉ rest.splitOn 47 := by
    intro isSegment
    rcases dotFree dots isSegment with ⟨notOne, notTwo⟩
    exact isDots.elim notOne notTwo
  constructor
  · rintro rfl
    simp [List.splitOn_eq_singleton plain] at noDots
  · rintro ⟨later, rfl⟩
    apply noDots
    rw [List.append_assoc]
    change dots ∈ (dots ++ 47 :: later).splitOn 47
    simp [List.splitOn_append_cons_self_of_not_mem plain]

/-- A round of the loop moves a segment that is not a dot segment. -/
theorem removeDotsLoop_segment {rest : Text} (dotFree : DotFree rest) (rounds : ℕ) (output : Text) :
    removeDotsLoop (rounds + 1) (47 :: rest) output =
      removeDotsLoop rounds (rest.dropWhile (· ≠ 47))
        (output ++ 47 :: rest.takeWhile (· ≠ 47)) := by
  rcases dotFree.head (Or.inl rfl) with ⟨notOne, notOneSlash⟩
  rcases dotFree.head (Or.inr rfl) with ⟨notTwo, notTwoSlash⟩
  have after : (47 :: rest).drop (firstSegment (47 :: rest)).length =
      rest.dropWhile (· ≠ 47) := by
    have whole := List.takeWhile_append_dropWhile (p := (· ≠ 47)) (l := rest)
    calc rest.drop (rest.takeWhile (· ≠ 47)).length
        = (rest.takeWhile (· ≠ 47) ++ rest.dropWhile (· ≠ 47)).drop
            (rest.takeWhile (· ≠ 47)).length := by rw [whole]
      _ = rest.dropWhile (· ≠ 47) := List.drop_left
  have oneSlash : ¬ascii "/./" <+: 47 :: rest := by
    intro begins
    change 47 :: (ascii "." ++ ascii "/") <+: 47 :: rest at begins
    exact notOneSlash (List.cons_prefix_cons.mp begins).2
  have one : ¬47 :: rest = ascii "/." := fun same => notOne (List.cons.inj same).2
  have twoSlash : ¬ascii "/../" <+: 47 :: rest := by
    intro begins
    change 47 :: (ascii ".." ++ ascii "/") <+: 47 :: rest at begins
    exact notTwoSlash (List.cons_prefix_cons.mp begins).2
  have two : ¬47 :: rest = ascii "/.." := fun same => notTwo (List.cons.inj same).2
  rw [removeDotsLoop, if_neg (by simp), if_neg (by simp [ascii]), if_neg (by simp [ascii]),
    if_neg oneSlash, if_neg one, if_neg twoSlash, if_neg two, if_neg (by simp [ascii]), after]
  rfl

theorem removeDotsLoop_nil (rounds : ℕ) (output : Text) :
    removeDotsLoop rounds [] output = output := by
  cases rounds <;> simp [removeDotsLoop]

/-- `remove_dot_segments` keeps an absolute path without dot segments. -/
theorem removeDotsLoop_absolute {rounds : ℕ} {rest : Text} (dotFree : DotFree rest)
    (enough : rest.length + 1 ≤ rounds) (output : Text) :
    removeDotsLoop rounds (47 :: rest) output = output ++ 47 :: rest := by
  induction rounds generalizing rest output with
  | zero => simp at enough
  | succ rounds ih =>
      rw [removeDotsLoop_segment dotFree]
      by_cases slash : 47 ∈ rest
      · rcases List.eq_append_cons_of_mem slash with ⟨segment, later, rfl, absent⟩
        rw [dropWhile_ne_append absent, takeWhile_ne_append absent, ih dotFree.of_append_cons]
        · simp
        · simp at enough
          omega
      · rw [dropWhile_ne_of_not_mem slash, takeWhile_ne_of_not_mem slash, removeDotsLoop_nil]

theorem removeDotSegments_absolute {rest : Text} (dotFree : DotFree rest) :
    removeDotSegments (47 :: rest) = 47 :: rest :=
  removeDotsLoop_absolute dotFree le_rfl []

/-- The path and the query that a request for the reference asks for. -/
def Reference.originForm (reference : Reference) : Text :=
  (if reference.path = [] then ascii "/" else reference.path) ++ reference.queryText

/-- The text with a slash in front. -/
def rooted (text : Text) : Text := if text.head? = some 47 then text else 47 :: text

theorem removeDotSegments_of_head {path : Text} (dotFree : DotFree path)
    (absolute : path.head? = some 47) : removeDotSegments path = path := by
  rcases List.head?_eq_some_iff.mp absolute with ⟨rest, rfl⟩
  exact removeDotSegments_absolute (dotFree_cons_iff.mp dotFree)

theorem rooted_append {front : Text} (nonempty : front ≠ []) (back : Text) :
    rooted front ++ back = rooted (front ++ back) := by
  rcases List.exists_cons_of_ne_nil nonempty with ⟨c, front, rfl⟩
  by_cases slash : c = 47 <;> simp [rooted, slash]

theorem rooted_ne_nil (text : Text) : rooted text ≠ [] := by
  rw [rooted]
  split
  case isTrue slash => exact List.ne_nil_of_mem (List.mem_of_mem_head? slash)
  case isFalse => simp

/-- A query does not begin with a slash, so that it matters only whether the path does. -/
theorem Reference.ofText_rooted {text : Text} (noFragment : 35 ∉ text)
    (scheme authority : Option Text) :
    rooted (ofText scheme authority text).path ++ (ofText scheme authority text).queryText =
      rooted text := by
  have whole := ofText_pathQuery noFragment scheme authority
  by_cases empty : (ofText scheme authority text).path = []
  · rw [empty, List.nil_append] at whole
    have relative : text.head? ≠ some 47 := by
      rw [← whole, queryText]
      split <;> simp
    rw [empty, whole]
    simp [rooted, relative]
  · rw [rooted_append empty, whole]

theorem resolve_queryText {base : Reference} (noQuery : base.query = none) (reference : Reference) :
    (resolve base reference).queryText = reference.queryText := by
  have inherited : (if reference.path = [] ∧ reference.query = none then base.query
      else reference.query) = reference.query := by
    split
    case isTrue none => rw [noQuery, none.2]
    case isFalse => rfl
  simp only [Reference.queryText, resolve, inherited]
  split_ifs <;> rfl

theorem Reference.originForm_relative {base : Reference} {text : Text} (noFragment : 35 ∉ text)
    (isRoot : base.path = ascii "/") (noQuery : base.query = none)
    (dotFree : DotFree (ofText none none text).path) :
    (resolve base (ofText none none text)).originForm = rooted text := by
  have path : (resolve base (ofText none none text)).path =
      rooted (ofText none none text).path := by
    rw [resolve, if_neg (by simp [ofText]), if_neg (by simp [ofText])]
    dsimp only
    split_ifs with empty absolute
    · rw [isRoot, empty]
      rfl
    · rw [removeDotSegments_of_head dotFree absolute, rooted, if_pos absolute]
    · have merged : merge base (ofText none none text) = 47 :: (ofText none none text).path := by
        simp [merge, isRoot, ascii]
      rw [merged, removeDotSegments_absolute dotFree, rooted, if_neg absolute]
  rw [originForm, path, if_neg (rooted_ne_nil _), resolve_queryText noQuery,
    ofText_rooted noFragment]

theorem Reference.originForm_authority {base : Reference} {scheme : Option Text}
    {authority text : Text} (noFragment : 35 ∉ text) (noQuery : base.query = none)
    (starts : ∀ c ∈ text.head?, c = 47 ∨ c = 63)
    (dotFree : DotFree (ofText scheme (some authority) text).path) :
    (resolve base (ofText scheme (some authority) text)).originForm = rooted text := by
  have path : (resolve base (ofText scheme (some authority) text)).path =
      removeDotSegments (ofText scheme (some authority) text).path := by
    by_cases hasScheme : scheme = none <;> simp [resolve, ofText, hasScheme]
  rw [originForm, path, resolve_queryText noQuery, ← ofText_rooted noFragment]
  congr 1
  by_cases empty : (ofText scheme (some authority) text).path = []
  · rw [empty]
    rfl
  · have absolute : (ofText scheme (some authority) text).path.head? = some 47 := by
      have whole := ofText_pathQuery noFragment scheme (some authority)
      have noMark : 63 ∉ (ofText scheme (some authority) text).path :=
        not_mem_splitAtAny (by decide)
      rcases List.exists_cons_of_ne_nil empty with ⟨c, path, isPath⟩
      rw [isPath] at whole noMark
      have isHead : text.head? = some c := by
        rw [← whole, List.cons_append, List.head?_cons]
      rcases starts c isHead with rfl | rfl
      · rw [isPath, List.head?_cons]
      · simp at noMark
    rw [removeDotSegments_of_head dotFree absolute, if_neg empty, rooted, if_pos absolute]

end Resolution

end PracticalCrypto.UriReference
