import PracticalCrypto.Surf.Demo.Headers

/-!
# Header fields that are bound to the origin

The proxy serves a response under another host than the one it came from, so it strips the
fields that would bind the browser to the origin (`strip_origin_bound_headers` in
`surf-impl/src/demo/proxy.b.cpp`) and forbids caching.

A content security policy is stripped if it upgrades insecure requests. A response can have
several policies, but only the first is looked at, and its verdict is the verdict on all.
-/

namespace PracticalCrypto.Surf.Demo

open TextSearch HttpText

section Stripping

/-- The fields that would outlive the connection to the proxy. -/
def originBoundNames : List Text :=
  [ascii "strict-transport-security", ascii "alt-svc", ascii "clear-site-data",
    ascii "public-key-pins", ascii "public-key-pins-report-only"]

def cachingNames : List Text :=
  [ascii "cache-control", ascii "expires", ascii "etag", ascii "last-modified"]

def policyName : Text := ascii "content-security-policy"

def upgradeInsecureRequests : Text := ascii "upgrade-insecure-requests"

def noStore : Text := ascii "Cache-Control: no-store"

theorem isLine_noStore : IsLine noStore := by decide

theorem noStore_ne_nil : noStore ≠ [] := by decide

def stripOriginBoundHeaders (response : Text) : Text :=
  let response := originBoundNames.foldl removeHeader response
  let policy := toLower (headerValue response policyName)
  let response :=
    if find upgradeInsecureRequests policy = none then response
    else removeHeader response policyName
  let response := cachingNames.foldl removeHeader response
  match find crlf response with
  | none => response
  | some eol => response.take (eol + 2) ++ (noStore ++ crlf) ++ response.drop (eol + 2)

end Stripping

section Removal

variable {names : List Text}

/-- One of the names is the name of the field. -/
def isAnyOf (names : List Text) (field : Text) : Bool := names.any (isNamed · field)

theorem foldl_removeHeader_text (areNames : ∀ name ∈ names, IsName name) (message : Message) :
    names.foldl removeHeader message.text =
      (message.filterFields fun field => !isAnyOf names field).text := by
  induction names generalizing message with
  | nil =>
      have all : (message.filterFields fun _ => true) = message := by
        ext1 <;> simp [Message.filterFields]
      simp [isAnyOf, all]
  | cons name names ih =>
      have isName := areNames name (by simp)
      rw [List.foldl_cons, isName.removeHeader_text, ih fun other isOther =>
        areNames other (by simp [isOther]), Message.filterFields_filterFields]
      simp [isAnyOf, Bool.and_comm]

/-- The value of a field: what comes after the colon. -/
def fieldValue (field : Text) : Text := (field.dropWhile (· ≠ 58)).drop 1

/-- The policy of the field upgrades insecure requests. -/
def upgrades (field : Text) : Bool := upgradeInsecureRequests <:+: toLower (fieldValue field)

/-- A field that should be stripped. -/
def isOriginBound (field : Text) : Bool :=
  isAnyOf originBoundNames field || isAnyOf cachingNames field ||
    (isNamed policyName field && upgrades field)

/-- Everything that is bound to the origin is gone, and nothing else has changed. -/
structure Stripped (before after : Message) : Prop where
  startLine : after.startLine = before.startLine
  fields : after.fields = noStore :: before.fields.filter fun field => !isOriginBound field
  body : after.body = before.body

theorem drop_fieldKey {name field : Text} (named : isNamed name field = true) :
    field.drop (fieldKey name).length = fieldValue field := by
  rcases exists_of_isNamed named with ⟨start, value, rfl, absent, isEqual⟩
  have length : (fieldKey name).length = start.length + 1 := by
    rw [fieldKey, ← isEqual, List.length_append, length_toLower]
    rfl
  have isValue : (start ++ 58 :: value).dropWhile (· ≠ 58) = 58 :: value :=
    dropWhile_ne_append absent value
  rw [fieldValue, isValue, length, ← List.drop_drop, List.drop_left]

/-- The verdict on the policies of a response: that on the first one. -/
def firstUpgrades (fields : List Text) : Bool := (fields.find? (isNamed policyName)).any upgrades

theorem find_upgrade_iff (message : Message) :
    find upgradeInsecureRequests (toLower (headerValue message.text policyName)) = none ↔
      firstUpgrades message.fields = false := by
  have isName : IsName policyName := by decide
  have nonempty : upgradeInsecureRequests ≠ [] := by decide
  have unblank : ∀ c ∈ upgradeInsecureRequests, isBlank c = false := by
    simp [upgradeInsecureRequests, ascii, isBlank]
  rw [isName.headerValue_text, find_eq_none_iff, firstUpgrades]
  cases first : message.fields.find? (isNamed policyName) with
  | none => simpa [toLower] using nonempty
  | some field =>
      have named : isNamed policyName field = true := List.find?_some first
      rw [Option.map_some, Option.getD_some, infix_toLower_trim_iff nonempty unblank,
        drop_fieldKey named]
      simp [upgrades]

theorem isAnyOf_eq_false {name field : Text} (named : isNamed name field = true)
    (others : ∀ other ∈ names, toLower other ≠ toLower name) : isAnyOf names field = false := by
  simp only [isAnyOf, List.any_eq_false]
  intro other isOther alsoNamed
  simp only [isNamed, decide_eq_true_eq] at named alsoNamed
  exact others other isOther (alsoNamed.2.symm.trans named.2)

theorem firstUpgrades_filter (fields : List Text) :
    firstUpgrades (fields.filter fun field => !isAnyOf originBoundNames field) =
      firstUpgrades fields := by
  have others : ∀ other ∈ originBoundNames, toLower other ≠ toLower policyName := by
    decide +kernel
  have kept : (fun field => decide ((!isAnyOf originBoundNames field) = true ∧
      isNamed policyName field = true)) = isNamed policyName := by
    funext field
    cases named : isNamed policyName field with
    | false => simp
    | true => simp [isAnyOf_eq_false named others]
  rw [firstUpgrades, List.find?_filter, kept, firstUpgrades]

/-- What is stripped: a policy goes if the first one upgrades insecure requests. -/
def isStripped (fields : List Text) (field : Text) : Bool :=
  isAnyOf originBoundNames field || isAnyOf cachingNames field ||
    (isNamed policyName field && firstUpgrades fields)

theorem removePolicy_text (message : Message) :
    (if find upgradeInsecureRequests (toLower (headerValue message.text policyName)) = none
      then message.text else removeHeader message.text policyName) =
      (message.filterFields fun field =>
        !(isNamed policyName field && firstUpgrades message.fields)).text := by
  have isName : IsName policyName := by decide
  simp only [find_upgrade_iff, isName.removeHeader_text]
  cases firstUpgrades message.fields with
  | false =>
      have all : (message.filterFields fun _ => true) = message := by
        ext1 <;> simp [Message.filterFields]
      simp [all]
  | true => simp

theorem stripOriginBoundHeaders_text (before : Message) :
    stripOriginBoundHeaders before.text =
      ((before.filterFields fun field => !isStripped before.fields field).insertField noStore
        isLine_noStore noStore_ne_nil).text := by
  have originNames : ∀ name ∈ originBoundNames, IsName name := by decide +kernel
  have otherNames : ∀ name ∈ cachingNames, IsName name := by decide +kernel
  unfold stripOriginBoundHeaders
  rw [foldl_removeHeader_text originNames]
  dsimp only
  rw [removePolicy_text, foldl_removeHeader_text otherNames, Message.filterFields_filterFields,
    Message.filterFields_filterFields, Message.find_crlf]
  dsimp only
  rw [← Message.insertField_text _ isLine_noStore noStore_ne_nil]
  congr 3
  funext field
  simp only [isStripped, Message.filterFields, firstUpgrades_filter]
  cases isAnyOf originBoundNames field <;> cases isAnyOf cachingNames field <;> simp

theorem filter_eq_filter_iff {fields : List Text} {keep other : Text → Bool} :
    fields.filter keep = fields.filter other ↔ ∀ field ∈ fields, keep field = other field := by
  constructor
  · intro same field isField
    have both : field ∈ fields.filter keep ↔ field ∈ fields.filter other := by rw [same]
    rw [List.mem_filter, List.mem_filter] at both
    exact Bool.eq_iff_iff.mpr (by simpa [isField] using both)
  · exact List.filter_congr

/-- The verdict on the first policy is the right one on all of them. -/
theorem isStripped_eq_iff (fields : List Text) :
    (∀ field ∈ fields, (!isStripped fields field) = !isOriginBound field) ↔
      ∀ field ∈ fields, isNamed policyName field = true →
        upgrades field = firstUpgrades fields := by
  have others : ∀ other ∈ originBoundNames ++ cachingNames, toLower other ≠ toLower policyName := by
    decide +kernel
  apply forall₂_congr
  intro field _
  cases named : isNamed policyName field with
  | false => simp [isStripped, isOriginBound, named]
  | true =>
      have origin : isAnyOf originBoundNames field = false :=
        isAnyOf_eq_false named fun other isOther => others other (by simp [isOther])
      have caching : isAnyOf cachingNames field = false :=
        isAnyOf_eq_false named fun other isOther => others other (by simp [isOther])
      simp [isStripped, isOriginBound, named, origin, caching, eq_comm]

theorem exists_stripped_iff (before : Message) :
    (∃ after : Message, stripOriginBoundHeaders before.text = after.text ∧
      Stripped before after) ↔
    ∀ field ∈ before.fields, (!isStripped before.fields field) = !isOriginBound field := by
  rw [stripOriginBoundHeaders_text, ← filter_eq_filter_iff]
  constructor
  · rintro ⟨after, same, stripped⟩
    rcases Message.text_injective same with ⟨_, fields, _⟩
    exact (List.cons.inj (fields.trans stripped.fields)).2
  · intro same
    exact ⟨_, rfl, rfl, congrArg (noStore :: ·) same, rfl⟩

/-- The right fields are stripped exactly if the policies of the response agree on whether they
upgrade insecure requests. -/
theorem stripOriginBoundHeaders_iff (before : Message) :
    (∃ after : Message, stripOriginBoundHeaders before.text = after.text ∧
      Stripped before after) ↔
    ∀ field ∈ before.fields, ∀ other ∈ before.fields, isNamed policyName field = true →
      isNamed policyName other = true → upgrades field = upgrades other := by
  rw [exists_stripped_iff, isStripped_eq_iff]
  constructor
  · intro first field isField other isOther named alsoNamed
    rw [first field isField named, first other isOther alsoNamed]
  · intro agree field isField named
    cases found : before.fields.find? (isNamed policyName) with
    | none =>
        have absent := List.find?_eq_none.mp found field isField
        exact absurd named absent
    | some other =>
        rw [firstUpgrades, found]
        exact agree field isField other (List.mem_of_find?_eq_some found) named
          (List.find?_some found)

/-- A response with two policies, the second of which upgrades insecure requests. -/
def twoPolicies : Message where
  startLine := ascii "HTTP/1.1 200 OK"
  fields := [ascii "Content-Security-Policy: default-src https:",
    ascii "Content-Security-Policy: upgrade-insecure-requests"]
  body := []
  isLine_startLine := isLine_ok
  isLine_fields := by decide +kernel
  fields_ne_nil := by decide +kernel

theorem twoPolicies_not_stripped :
    stripOriginBoundHeaders twoPolicies.text =
      ascii "HTTP/1.1 200 OK\r\nCache-Control: no-store\r\n" ++
        ascii "Content-Security-Policy: default-src https:\r\n" ++
        ascii "Content-Security-Policy: upgrade-insecure-requests\r\n\r\n" ∧
    ¬∃ after : Message, stripOriginBoundHeaders twoPolicies.text = after.text ∧
      Stripped twoPolicies after := by
  constructor
  · decide +kernel
  · rw [exists_stripped_iff]
    decide +kernel

end Removal

end PracticalCrypto.Surf.Demo
