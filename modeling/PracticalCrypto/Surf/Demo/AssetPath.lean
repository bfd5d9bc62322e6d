import PracticalCrypto.Library.UriReference
import PracticalCrypto.Surf.Demo.Headers

/-!
# Resolving asset references

A page names its assets by references, and the demo has to find the path that it asks the origin
for (`resolve_asset_path` in `surf-impl/src/demo/demo.b.cpp`, with the same body in
`benchmarks/MultiGet.b.cpp` and `benchmarks/MultiGetH2.b.cpp`). The code does not parse the
reference. It looks for `://` and for a colon before the first slash, wherever they are, so that
a query is taken for an authority or a scheme, and it ends an authority at the first slash, even
if a query begins before. `Readable` references have nothing of that kind in a place where the
code would take it for something else, and the code resolves them as RFC 3986 does.
-/

namespace PracticalCrypto.Surf.Demo

open TextSearch HttpText UriReference

section Model

def separator : Text := ascii "://"

/-- There is a colon, and no slash before it. -/
def colonFirst (val : Text) : Bool :=
  match find (ascii ":") val, find (ascii "/") val with
  | none, _ => false
  | some _, none => true
  | some colon, some slash => colon < slash

/-- What the code takes for authority and path, empty if it takes the reference for a relative
one and `none` if for one with another scheme. -/
def authorityAndPath (val : Text) : Option Text :=
  if ascii "//" <+: val then some (val.drop 2)
  else
    match find separator val with
    | some start => some (val.drop (start + 3))
    | none => if colonFirst val then none else some []

def authorityHost (text : Text) : Text :=
  let host :=
    match find (ascii "/") text with
    | none => text
    | some slash => text.take slash
  let host :=
    match find (ascii "@") host with
    | none => host
    | some sign => host.drop (sign + 1)
  match find (ascii ":") host with
  | none => host
  | some colon => host.take colon

def resolveAuthority (text host : Text) : Text :=
  if toLower (authorityHost text) ≠ toLower host then []
  else
    match find (ascii "/") text with
    | none => ascii "/"
    | some slash => text.drop slash

def resolveAssetPath (val host : Text) : Text :=
  if val = [] ∨ val.head? = some 35 then []
  else
    match authorityAndPath val with
    | none => []
    | some text =>
        if text ≠ [] ∨ ascii "//" <+: val then resolveAuthority text host
        else if val.head? = some 47 then val
        else if ascii "./" <+: val then val.drop 1
        else 47 :: val

end Model

section Specification

/-- The URL of the page. -/
def pageUrl (host : Text) : Reference :=
  { scheme := some (ascii "https"), authority := some host, path := ascii "/", query := none }

def sameHost (authority host : Text) : Bool := toLower (hostOf authority) = toLower (hostOf host)

/-- The path that the reference resolves to, if it is on the host of the page. -/
def originPath (val host : Text) : Text :=
  let target := resolve (pageUrl host) (parse val)
  match target.authority with
  | none => []
  | some authority => if sameHost authority host then target.originForm else []

/-- A name of a host has none of the characters that end or divide an authority. -/
def IsHostName (host : Text) : Prop := ∀ c ∈ ascii "/?#@:[", c ∉ host

instance decidableIsHostName (host : Text) : Decidable (IsHostName host) :=
  inferInstanceAs (Decidable (∀ c ∈ ascii "/?#@:[", c ∉ host))

/-- A path is between the authority and the query. -/
def SeparatesQuery (reference : Reference) : Prop :=
  reference.path ≠ [] ∨ reference.query = none

/-- Nothing in the reference is in a place where the code takes it for something else. -/
def Readable (val : Text) : Prop :=
  match (parse val).scheme, (parse val).authority with
  | none, none => val ≠ [] ∧ ¬separator <:+: val ∧ 58 ∉ val.takeWhile (· ≠ 47)
  | some _, none => ¬separator <:+: val
  | none, some _ => SeparatesQuery (parse val)
  | some scheme, some _ => val ≠ scheme ++ separator ∧ SeparatesQuery (parse val)

end Specification

section Authority

variable {text host : Text}

theorem tolower_eq_bracket {c : UInt8} (isBracket : tolower c = 91) : c = 91 := by
  unfold tolower at isBracket
  split at isBracket
  case isTrue upper =>
    simp only [UInt8.le_iff_toNat_le, ← UInt8.toNat_inj, UInt8.toNat_add, UInt8.reduceToNat] at *
    omega
  case isFalse => exact isBracket

theorem hostOf_of_isHostName (isName : IsHostName host) : hostOf host = host := by
  have noSign : 64 ∉ host := isName 64 (by decide)
  have noColon : 58 ∉ host := isName 58 (by decide)
  rw [hostOf_of_named (isName 91 (by decide)), hostAndPort, if_neg noSign,
    takeWhile_ne_of_not_mem noColon]

/-- An address in brackets is no name, however much of it is compared. -/
theorem toLower_ne_of_bracket {address : Text} (isName : IsHostName host) :
    toLower (91 :: address) ≠ toLower host := by
  intro same
  cases host with
  | nil => cases same
  | cons c host =>
      have heads : tolower 91 = tolower c := (List.cons.inj same).1
      obtain rfl := tolower_eq_bracket heads.symm
      exact isName 91 (by decide) List.mem_cons_self

theorem authorityHost_eq (text : Text) :
    authorityHost text = (hostAndPort (text.takeWhile (· ≠ 47))).takeWhile (· ≠ 58) := by
  simp only [hostAndPort, takeWhile_eq_find, drop_dropWhile_eq_find]
  rfl

/-- The code compares the host of the authority with the one of the page. -/
theorem toLower_authorityHost_iff (isName : IsHostName host) :
    toLower (authorityHost text) = toLower host ↔
      sameHost (text.takeWhile (· ≠ 47)) host = true := by
  rw [sameHost, hostOf_of_isHostName isName, decide_eq_true_iff, authorityHost_eq, hostOf]
  split
  case isFalse => rfl
  case isTrue bracket =>
    rcases List.head?_eq_some_iff.mp bracket with ⟨address, isAddress⟩
    rw [isAddress, List.takeWhile_cons_of_pos (by decide), List.takeWhile_cons_of_pos (by decide),
      List.cons_append]
    exact iff_of_false (toLower_ne_of_bracket isName) (toLower_ne_of_bracket isName)

theorem head_afterAuthority {c : UInt8} (noFragment : 35 ∉ text)
    (isHead : c ∈ (splitAtAny (ascii "/?#") text).2.head?) : c = 47 ∨ c = 63 := by
  rcases List.head?_eq_some_iff.mp isHead with ⟨rest, isRest⟩
  have isStop : c = 47 ∨ c = 63 ∨ c = 35 := by simpa [ascii] using head_splitAtAny isRest
  have inside : c ∈ text := by
    rw [← splitAtAny_append (ascii "/?#") text, isRest]
    simp
  rcases isStop with slash | mark | rfl
  · exact Or.inl slash
  · exact Or.inr mark
  · exact absurd inside noFragment

/-- If no query follows the authority, the authority ends at the first slash. -/
theorem split_afterAuthority (noFragment : 35 ∉ text)
    (noQuery : (splitAtAny (ascii "/?#") text).2.head? ≠ some 63) :
    text.takeWhile (· ≠ 47) = (splitAtAny (ascii "/?#") text).1 ∧
      text.dropWhile (· ≠ 47) = (splitAtAny (ascii "/?#") text).2 := by
  have noSlash : 47 ∉ (splitAtAny (ascii "/?#") text).1 := not_mem_splitAtAny (by decide)
  have whole := splitAtAny_append (ascii "/?#") text
  cases isRest : (splitAtAny (ascii "/?#") text).2 with
  | nil =>
      rw [isRest, List.append_nil] at whole
      rw [whole] at noSlash ⊢
      exact ⟨takeWhile_ne_of_not_mem noSlash, dropWhile_ne_of_not_mem noSlash⟩
  | cons c rest =>
      rcases head_afterAuthority noFragment (by rw [isRest]; rfl) with rfl | rfl
      · rw [isRest] at whole
        have parts : text = (splitAtAny (ascii "/?#") text).1 ++ 47 :: rest := whole.symm
        constructor
        · nth_rewrite 1 [parts]
          exact takeWhile_ne_append noSlash rest
        · nth_rewrite 1 [parts]
          exact dropWhile_ne_append noSlash rest
      · exact absurd (by rw [isRest]; rfl) noQuery

theorem resolveAuthority_eq (noFragment : 35 ∉ text) (isName : IsHostName host)
    (noQuery : (splitAtAny (ascii "/?#") text).2.head? ≠ some 63) :
    resolveAuthority text host =
      if sameHost (splitAtAny (ascii "/?#") text).1 host then
        rooted (splitAtAny (ascii "/?#") text).2 else [] := by
  have path : (match find (ascii "/") text with
      | none => ascii "/"
      | some slash => text.drop slash) = rooted (text.dropWhile (· ≠ 47)) := by
    by_cases slash : 47 ∈ text
    · rcases List.eq_append_cons_of_mem slash with ⟨authority, path, rfl, absent⟩
      rw [show ascii "/" = [47] from rfl, find_singleton absent, dropWhile_ne_append absent]
      simp [rooted]
    · rw [show ascii "/" = [47] from rfl, find_singleton_none slash, dropWhile_ne_of_not_mem slash]
      rfl
  rcases split_afterAuthority noFragment noQuery with ⟨isAuthority, isRest⟩
  rw [resolveAuthority, path, isRest, ← isAuthority]
  by_cases same : toLower (authorityHost text) = toLower host
  · rw [if_neg (not_not_intro same), if_pos ((toLower_authorityHost_iff isName).mp same)]
  · rw [if_pos same, if_neg (mt (toLower_authorityHost_iff isName).mpr same)]

/-- A path before the query is a slash after the authority. -/
theorem head_of_separatesQuery {scheme authority : Option Text} {rest : Text}
    (separates : SeparatesQuery (.ofText scheme authority rest)) :
    rest.head? ≠ some 63 := by
  intro mark
  rcases List.head?_eq_some_iff.mp mark with ⟨query, rfl⟩
  rcases separates with isPath | noQuery
  · exact isPath (by simp [Reference.ofText, splitAtAny, ascii])
  · simp [Reference.ofText, splitAtAny, takeQuery, ascii] at noQuery

end Authority

section Expected

variable {val host rest : Text} {scheme : Option Text}

theorem originPath_relative (isParse : parse val = .ofText none none val) (noFragment : 35 ∉ val)
    (dotFree : DotFree (parse val).path) : originPath val host = rooted val := by
  rw [isParse] at dotFree
  have form : (resolve (pageUrl host) (.ofText none none val)).originForm = rooted val :=
    Reference.originForm_relative noFragment rfl rfl dotFree
  have authority : (resolve (pageUrl host) (.ofText none none val)).authority = some host := by
    simp [resolve, Reference.ofText, pageUrl]
  rw [originPath, isParse, authority]
  simp [sameHost, form]

theorem originPath_schemeOnly {name : Text} (isParse : parse val = .ofText (some name) none rest) :
    originPath val host = [] := by
  simp [originPath, isParse, resolve, Reference.ofText]

theorem originPath_authority (isParse : parse val = .ofText scheme
      (some (splitAtAny (ascii "/?#") rest).1) (splitAtAny (ascii "/?#") rest).2)
    (noFragment : 35 ∉ rest) (dotFree : DotFree (parse val).path) :
    originPath val host =
      if sameHost (splitAtAny (ascii "/?#") rest).1 host then
        rooted (splitAtAny (ascii "/?#") rest).2 else [] := by
  rw [isParse] at dotFree
  have plain : 35 ∉ (splitAtAny (ascii "/?#") rest).2 := by
    intro inside
    apply noFragment
    rw [← splitAtAny_append (ascii "/?#") rest]
    exact List.mem_append_right _ inside
  have form : (resolve (pageUrl host) (.ofText scheme _ _)).originForm = _ :=
    Reference.originForm_authority plain rfl (fun c isHead => head_afterAuthority noFragment isHead)
      dotFree
  have authority : (resolve (pageUrl host) (.ofText scheme
      (some (splitAtAny (ascii "/?#") rest).1) (splitAtAny (ascii "/?#") rest).2)).authority =
      some (splitAtAny (ascii "/?#") rest).1 := by
    cases scheme <;> simp [resolve, Reference.ofText]
  rw [originPath, isParse, authority, form]

end Expected

section Code

variable {val host : Text}

theorem colonFirst_iff : colonFirst val = true ↔ 58 ∈ val.takeWhile (· ≠ 47) := by
  rw [colonFirst, show ascii ":" = [58] from rfl, show ascii "/" = [47] from rfl]
  by_cases slash : 47 ∈ val
  · rcases List.eq_append_cons_of_mem slash with ⟨front, back, rfl, absent⟩
    rw [find_singleton absent, takeWhile_ne_append absent]
    by_cases colon : 58 ∈ front
    · rcases List.eq_append_cons_of_mem colon with ⟨start, later, rfl, first⟩
      rw [List.append_assoc, List.cons_append, find_singleton first]
      simp
    · rw [(skips_of_not_mem [] (47 :: back) colon).find_append]
      cases find [58] (47 :: back) <;> simp [colon]
  · rw [find_singleton_none slash, takeWhile_ne_of_not_mem slash]
    by_cases colon : 58 ∈ val
    · rcases List.eq_append_cons_of_mem colon with ⟨start, later, rfl, first⟩
      rw [find_singleton first]
      simp
    · rw [find_singleton_none colon]
      simp [colon]

theorem resolveAssetPath_network (network : ascii "//" <+: val) :
    resolveAssetPath val host = resolveAuthority (val.drop 2) host := by
  rcases network with ⟨rest, rfl⟩
  have isAuthority : authorityAndPath (ascii "//" ++ rest) = some rest := by
    simp [authorityAndPath, ascii]
  rw [resolveAssetPath, if_neg (by simp [ascii]), isAuthority]
  simp [ascii]

theorem resolveAssetPath_relative (nonempty : val ≠ []) (noFragment : 35 ∉ val)
    (noAuthority : ¬ascii "//" <+: val) (noDot : ¬ascii "./" <+: val)
    (noSeparator : ¬separator <:+: val) :
    resolveAssetPath val host = if colonFirst val then [] else rooted val := by
  have isPlain : ¬(val = [] ∨ val.head? = some 35) := by
    rintro (empty | hash)
    · exact nonempty empty
    · exact noFragment (List.mem_of_mem_head? hash)
  rw [resolveAssetPath, if_neg isPlain, authorityAndPath, if_neg noAuthority,
    find_eq_none_iff.mpr noSeparator]
  cases colonFirst val <;> simp [noAuthority, noDot, rooted]

theorem resolveAssetPath_absolute {name rest : Text} (noColon : 58 ∉ name)
    (noFragment : 35 ∉ name) (noAuthority : ¬ascii "//" <+: name ++ (separator ++ rest))
    (nonempty : rest ≠ []) :
    resolveAssetPath (name ++ (separator ++ rest)) host = resolveAuthority rest host := by
  have isPlain : ¬(name ++ (separator ++ rest) = [] ∨
      (name ++ (separator ++ rest)).head? = some 35) := by
    cases name with
    | nil => simp [separator, ascii]
    | cons c name =>
        simp only [List.mem_cons, not_or] at noFragment
        simp [Ne.symm noFragment.1]
  have start : find separator (name ++ (separator ++ rest)) = some name.length :=
    (skips_of_not_mem (ascii "//") _ noColon).find_at
  have after : (name ++ (separator ++ rest)).drop (name.length + 3) = rest := by
    simp [List.drop_append, separator, ascii]
  rw [resolveAssetPath, if_neg isPlain, authorityAndPath, if_neg noAuthority, start]
  simp only [after]
  rw [if_pos (Or.inl nonempty)]

end Code

section Resolution

variable {val host : Text}

theorem relative_resolves (isScheme : splitScheme val = (none, val))
    (noAuthority : ¬ascii "//" <+: val) (noFragment : 35 ∉ val)
    (dotFree : DotFree (parse val).path) (readable : Readable val) :
    resolveAssetPath val host = originPath val host := by
  have isParse : parse val = .ofText none none val := by
    simp [parse, isScheme, splitAuthority, noAuthority]
  rw [originPath_relative isParse noFragment dotFree]
  rw [isParse] at dotFree
  have noDot : ¬ascii "./" <+: val := by
    rintro ⟨rest, rfl⟩
    apply (dotFree.head (Or.inl rfl)).2
    simp [Reference.ofText, splitAtAny, ascii]
  simp only [Readable, isParse, Reference.ofText] at readable
  rcases readable with ⟨nonempty, noSeparator, noColon⟩
  rw [resolveAssetPath_relative nonempty noFragment noAuthority noDot noSeparator, if_neg]
  rw [colonFirst_iff]
  exact noColon

theorem network_resolves (isScheme : splitScheme val = (none, val))
    (hasAuthority : ascii "//" <+: val) (noFragment : 35 ∉ val) (isName : IsHostName host)
    (dotFree : DotFree (parse val).path) (readable : Readable val) :
    resolveAssetPath val host = originPath val host := by
  have isParse : parse val = .ofText none (some (splitAtAny (ascii "/?#") (val.drop 2)).1)
      (splitAtAny (ascii "/?#") (val.drop 2)).2 := by
    simp [parse, isScheme, splitAuthority, hasAuthority]
  have plain : 35 ∉ val.drop 2 := fun inside => noFragment (List.mem_of_mem_drop inside)
  have separates : SeparatesQuery (parse val) := by
    have scheme : (parse val).scheme = none := by rw [isParse]; rfl
    have authority : (parse val).authority = some (splitAtAny (ascii "/?#") (val.drop 2)).1 := by
      rw [isParse]
      rfl
    simpa only [Readable, scheme, authority] using readable
  rw [isParse] at separates
  rw [originPath_authority isParse plain dotFree, resolveAssetPath_network hasAuthority,
    resolveAuthority_eq plain isName (head_of_separatesQuery separates)]

section Scheme

variable {name rest : Text}

/-- A reference with a scheme does not begin with a slash or a dot segment. -/
theorem scheme_starts (nonempty : name ≠ []) (isName : ∀ c ∈ ascii ":/?#", c ∉ name) (rest : Text) :
    name ++ 58 :: rest ≠ [] ∧ ¬ascii "//" <+: name ++ 58 :: rest ∧
      ¬ascii "./" <+: name ++ 58 :: rest := by
  have noSlash := isName 47 (by decide)
  rcases List.exists_cons_of_ne_nil nonempty with ⟨c, name, rfl⟩
  cases name <;> simp_all [ascii]

theorem schemeOnly_resolves (nonempty : name ≠ []) (isScheme : ∀ c ∈ ascii ":/?#", c ∉ name)
    (split : splitScheme (name ++ 58 :: rest) = (some name, rest))
    (noAuthority : ¬ascii "//" <+: rest) (noFragment : 35 ∉ name ++ 58 :: rest)
    (readable : Readable (name ++ 58 :: rest)) :
    resolveAssetPath (name ++ 58 :: rest) host = originPath (name ++ 58 :: rest) host := by
  have isParse : parse (name ++ 58 :: rest) = .ofText (some name) none rest := by
    simp [parse, split, splitAuthority, noAuthority]
  have colon : colonFirst (name ++ 58 :: rest) = true := by
    rw [colonFirst_iff, List.takeWhile_append_of_pos fun _ inside =>
      decide_eq_true (ne_of_mem_of_not_mem inside (isScheme 47 (by decide)))]
    simp
  rcases scheme_starts nonempty isScheme rest with ⟨isText, noNetwork, noDot⟩
  simp only [Readable, isParse, Reference.ofText] at readable
  rw [originPath_schemeOnly isParse,
    resolveAssetPath_relative isText noFragment noNetwork noDot readable, if_pos colon]

theorem absolute_resolves (nonempty : name ≠ []) (isScheme : ∀ c ∈ ascii ":/?#", c ∉ name)
    (split : splitScheme (name ++ (separator ++ rest)) = (some name, ascii "//" ++ rest))
    (noFragment : 35 ∉ name ++ (separator ++ rest)) (isName : IsHostName host)
    (dotFree : DotFree (parse (name ++ (separator ++ rest))).path)
    (readable : Readable (name ++ (separator ++ rest))) :
    resolveAssetPath (name ++ (separator ++ rest)) host =
      originPath (name ++ (separator ++ rest)) host := by
  have isParse : parse (name ++ (separator ++ rest)) = .ofText (some name)
      (some (splitAtAny (ascii "/?#") rest).1) (splitAtAny (ascii "/?#") rest).2 := by
    simp [parse, split, splitAuthority, ascii]
  have plain : 35 ∉ rest := fun inside => noFragment (by simp [inside])
  have scheme : (parse (name ++ (separator ++ rest))).scheme = some name := by
    rw [isParse]
    rfl
  have authority : (parse (name ++ (separator ++ rest))).authority =
      some (splitAtAny (ascii "/?#") rest).1 := by
    rw [isParse]
    rfl
  have noNetwork : ¬ascii "//" <+: name ++ (separator ++ rest) :=
    (scheme_starts nonempty isScheme (ascii "//" ++ rest)).2.1
  simp only [Readable, scheme, authority] at readable
  rcases readable with ⟨more, separates⟩
  have restNonempty : rest ≠ [] := by
    rintro rfl
    simp at more
  rw [isParse] at separates
  rw [originPath_authority isParse plain dotFree,
    resolveAssetPath_absolute (isScheme 58 (by decide)) (isScheme 35 (by decide)) noNetwork
      restNonempty,
    resolveAuthority_eq plain isName (head_of_separatesQuery separates)]

end Scheme

def styleSheet : Text := ascii "https://Example.com:443/css/main.css?v=2"

/-- A path whose query has a URL in it. -/
def redirect : Text := ascii "/go?to=https://example.com/x"

end Resolution

end PracticalCrypto.Surf.Demo
