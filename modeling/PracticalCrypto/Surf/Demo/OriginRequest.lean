import PracticalCrypto.Surf.Demo.Headers
import Mathlib.Data.List.Forall2

/-!
# The request that the proxy sends to the origin

The proxy takes the path out of the browser's request and builds a request of its own
(`build_origin_request` in `surf-impl/src/demo/proxy.b.cpp`): a request line, the configured
host, up to three fields of the browser and two fixed fields. A request that the joint
encryption could not carry is built again without the browser's fields.

The path is the text between the first two blanks of the raw request, wherever they are. It can
be of any length, and it can contain line breaks when the first line has one blank only.
-/

namespace PracticalCrypto.Surf.Demo

open TextSearch HttpText

section Building

def requestMethod (request : Text) : Text :=
  match find (ascii " ") request with
  | none => []
  | some blank => request.take blank

def requestPath (request : Text) : Text :=
  match find (ascii " ") request with
  | none => []
  | some first =>
      match findFrom (ascii " ") (first + 1) request with
      | none => []
      | some second => (request.drop (first + 1)).take (second - first - 1)

def aesEncN : ℕ := 16

def kAesEncIters : ℕ := 4

def kMaxRequestBytes : ℕ := 16 * aesEncN * kAesEncIters - 1

def forwardedNames : List Text :=
  [ascii "accept", ascii "accept-encoding", ascii "accept-language"]

/-- One round of the loop over the names. -/
def forwardField (browserRequest : Text) (allowEncoding : Bool) (name : Text) : Option Text :=
  if allowEncoding = false ∧ name = ascii "accept-encoding" then none
  else
    let value := headerValue browserRequest name
    if value = [] then none else some (name ++ ascii ": " ++ value)

def requestLine (method path : Text) : Text := method ++ ascii " " ++ path ++ ascii " HTTP/1.1"

def hostField (host : Text) : Text := ascii "Host: " ++ host

def userAgent : Text :=
  ascii "User-Agent: Mozilla/5.0 (Macintosh; Intel Mac OS X 10_15_7) AppleWebKit/537.36 " ++
    ascii "(KHTML, like Gecko) Chrome/126.0 Safari/537.36"

def minimalUserAgent : Text := ascii "User-Agent: Mozilla/5.0 (compatible; Surf/1.0)"

def connectionClose : Text := ascii "Connection: close"

/-- Lines, each with its line break, and the blank line. -/
def requestText (requestLines : List Text) : Text := requestLines.flatMap (· ++ crlf) ++ crlf

def buildOriginRequest (method path host browserRequest : Text) (allowEncoding : Bool) : Text :=
  let out := requestText ([requestLine method path, hostField host] ++
    forwardedNames.filterMap (forwardField browserRequest allowEncoding) ++
    [userAgent, connectionClose])
  if kMaxRequestBytes < out.length then
    requestText [requestLine method path, hostField host, minimalUserAgent, connectionClose]
  else out

end Building

section Structure

variable {method path host browserRequest : Text} {allowEncoding : Bool}

theorem lines_requestText {first : Text} {rest : List Text} (isLine : IsLine first)
    (areLines : ∀ line ∈ rest, IsLine line) :
    lines (requestText (first :: rest)) = first :: rest ++ [[], []] := by
  induction rest generalizing first with
  | nil =>
      have text : requestText [first] = first ++ fieldText [[], []] := by
        simp [requestText]
      rw [text, lines_fieldText isLine (by decide)]
      rfl
  | cons next rest ih =>
      have text : requestText (first :: next :: rest) =
          first ++ (crlf ++ requestText (next :: rest)) := by
        simp [requestText]
      rw [text, isLine.lines_append, ih (areLines next (by simp))]
      · rfl
      · intro line isRest
        exact areLines line (by simp [isRest])

theorem isLine_requestLine_iff (path : Text) :
    IsLine (requestLine (ascii "GET") path) ↔ IsLine path := by
  rw [requestLine, isLine_append_iff_of_right (by decide), isLine_append_iff_of_left (by decide)]

theorem isLine_hostField_iff (host : Text) : IsLine (hostField host) ↔ IsLine host :=
  isLine_append_iff_of_left (by decide)

/-- The fields that are forwarded have these names, each at most once. -/
def AreForwarded (fields : List Text) : Prop :=
  ∃ names, names.Sublist forwardedNames ∧ List.Forall₂ (isNamed · · = true) names fields

/-- One request line, the host, the browser's fields, a user agent and the end of the connection,
and nothing else. -/
def IsOriginRequest (path host request : Text) : Prop :=
  ∃ forwarded agent, AreForwarded forwarded ∧ isNamed (ascii "User-Agent") agent = true ∧
    lines request = [requestLine (ascii "GET") path, hostField host] ++ forwarded ++
      [agent, connectionClose, [], []]

theorem IsOriginRequest.isLine_path {request : Text}
    (isRequest : IsOriginRequest path host request) : IsLine path := by
  rcases isRequest with ⟨forwarded, agent, _, _, isLines⟩
  rw [← isLine_requestLine_iff]
  exact isLine_of_mem_lines (by rw [isLines]; simp)

theorem IsOriginRequest.isLine_host {request : Text}
    (isRequest : IsOriginRequest path host request) : IsLine host := by
  rcases isRequest with ⟨forwarded, agent, _, _, isLines⟩
  rw [← isLine_hostField_iff]
  exact isLine_of_mem_lines (by rw [isLines]; simp)

theorem forwardField_eq_some {name field : Text} (isName : 58 ∉ name)
    (forwards : forwardField browserRequest allowEncoding name = some field) :
    isNamed name field = true ∧ (13 ∉ name → IsLine field) := by
  unfold forwardField at forwards
  simp only at forwards
  split at forwards
  · cases forwards
  · split at forwards
    · cases forwards
    · cases forwards
      rw [List.append_assoc]
      constructor
      · have begins : (name ++ (ascii ": " ++ headerValue browserRequest name)).takeWhile (· ≠ 58) =
            name := takeWhile_ne_append isName _
        simp only [isNamed, begins, decide_eq_true_eq, and_true]
        simp [ascii]
      · intro plain
        rw [isLine_append_iff_of_left plain, isLine_append_iff_of_left (by decide)]
        exact isLine_headerValue browserRequest name

theorem forall₂_filterMap {names : List Text} (areNames : ∀ name ∈ names, 58 ∉ name) :
    List.Forall₂ (isNamed · · = true)
      (names.filter fun name => (forwardField browserRequest allowEncoding name).isSome)
      (names.filterMap (forwardField browserRequest allowEncoding)) := by
  induction names with
  | nil => exact List.Forall₂.nil
  | cons name names ih =>
      have rest := ih fun other isName => areNames other (by simp [isName])
      cases forwards : forwardField browserRequest allowEncoding name with
      | none => simpa [forwards] using rest
      | some field =>
          have named := (forwardField_eq_some (areNames name (by simp)) forwards).1
          simpa [forwards] using ⟨named, rest⟩

theorem areForwarded_filterMap (browserRequest : Text) (allowEncoding : Bool) :
    AreForwarded (forwardedNames.filterMap (forwardField browserRequest allowEncoding)) :=
  ⟨_, List.filter_sublist, forall₂_filterMap (by decide)⟩

theorem isLine_forwarded {field : Text}
    (isForwarded : field ∈ forwardedNames.filterMap (forwardField browserRequest allowEncoding)) :
    IsLine field := by
  have areNames : ∀ name ∈ forwardedNames, 58 ∉ name ∧ 13 ∉ name := by decide
  rcases List.mem_filterMap.mp isForwarded with ⟨name, isName, forwards⟩
  exact (forwardField_eq_some (areNames name isName).1 forwards).2 (areNames name isName).2

theorem length_minimal (path host : Text) :
    (requestText [requestLine (ascii "GET") path, hostField host, minimalUserAgent,
      connectionClose]).length = path.length + host.length + 92 := by
  have get : (ascii "GET").length = 3 := rfl
  have blank : (ascii " ").length = 1 := rfl
  have version : (ascii " HTTP/1.1").length = 9 := rfl
  have hostName : (ascii "Host: ").length = 6 := rfl
  have agent : minimalUserAgent.length = 46 := rfl
  have close : connectionClose.length = 17 := rfl
  simp [requestText, requestLine, hostField, crlf, get, blank, version, hostName, agent, close]
  omega

theorem length_minimal_le (path host : Text) (forwarded : List Text) :
    path.length + host.length + 92 ≤
      (requestText ([requestLine (ascii "GET") path, hostField host] ++ forwarded ++
        [userAgent, connectionClose])).length := by
  have longer : minimalUserAgent.length ≤ userAgent.length := by decide +kernel
  rw [← length_minimal]
  simp [requestText]
  omega

/-- The lines that were meant are the lines of the text exactly if no line break is in them. -/
theorem isOriginRequest_iff (path host : Text) {forwarded : List Text} {agent : Text}
    (areForwarded : AreForwarded forwarded) (areLines : ∀ field ∈ forwarded, IsLine field)
    (isAgent : isNamed (ascii "User-Agent") agent = true) (agentLine : IsLine agent) :
    IsOriginRequest path host (requestText ([requestLine (ascii "GET") path, hostField host] ++
      forwarded ++ [agent, connectionClose])) ↔ IsLine path ∧ IsLine host := by
  constructor
  · intro isRequest
    exact ⟨isRequest.isLine_path, isRequest.isLine_host⟩
  · rintro ⟨pathLine, hostLine⟩
    refine ⟨forwarded, agent, areForwarded, isAgent, ?_⟩
    have rest : ∀ line ∈ hostField host :: (forwarded ++ [agent, connectionClose]),
        IsLine line := by
      simp only [List.mem_cons, List.mem_append, List.not_mem_nil, or_false]
      rintro line (rfl | isForwarded | rfl | rfl)
      · exact (isLine_hostField_iff host).mpr hostLine
      · exact areLines line isForwarded
      · exact agentLine
      · decide
    simpa using lines_requestText ((isLine_requestLine_iff path).mpr pathLine) rest

theorem length_buildOriginRequest_le_iff (path host browserRequest : Text) (allowEncoding : Bool) :
    (buildOriginRequest (ascii "GET") path host browserRequest allowEncoding).length ≤
      kMaxRequestBytes ↔ path.length + host.length ≤ 931 := by
  have limit : kMaxRequestBytes = 1023 := rfl
  unfold buildOriginRequest
  extract_lets out
  have longer : path.length + host.length + 92 ≤ out.length := length_minimal_le path host _
  by_cases tooLong : kMaxRequestBytes < out.length
  · rw [if_pos tooLong, length_minimal, limit]
    omega
  · rw [if_neg tooLong]
    omega

theorem isOriginRequest_buildOriginRequest_iff (path host browserRequest : Text)
    (allowEncoding : Bool) :
    IsOriginRequest path host
        (buildOriginRequest (ascii "GET") path host browserRequest allowEncoding) ↔
      IsLine path ∧ IsLine host := by
  have full := isOriginRequest_iff path host (areForwarded_filterMap browserRequest allowEncoding)
    (fun _ => isLine_forwarded)
    (show isNamed (ascii "User-Agent") userAgent = true by decide +kernel) (by decide +kernel)
  have minimal := isOriginRequest_iff path host
    (show AreForwarded [] from ⟨[], List.nil_sublist _, List.Forall₂.nil⟩) (by simp)
    (show isNamed (ascii "User-Agent") minimalUserAgent = true by decide +kernel)
    (by decide +kernel)
  unfold buildOriginRequest
  extract_lets out
  by_cases tooLong : kMaxRequestBytes < out.length
  · rw [if_pos tooLong]
    exact minimal
  · rw [if_neg tooLong]
    exact full

/-- The request to the origin is short enough and has only the lines that it should have exactly
if path and host are short enough and have no line break in them. -/
theorem buildOriginRequest_iff {request : Text} (isGet : requestMethod request = ascii "GET")
    (host : Text) (allowEncoding : Bool) :
    (buildOriginRequest (requestMethod request) (requestPath request) host request
        allowEncoding).length ≤ kMaxRequestBytes ∧
      IsOriginRequest (requestPath request) host
        (buildOriginRequest (requestMethod request) (requestPath request) host request
          allowEncoding) ↔
    (requestPath request).length + host.length ≤ 931 ∧
      IsLine (requestPath request) ∧ IsLine host := by
  rw [isGet, length_buildOriginRequest_le_iff, isOriginRequest_buildOriginRequest_iff]

/-- The first line has one blank, so that the path reaches into the next line. -/
def splitRequest : Text := ascii "GET /\r\nX-Forwarded-For:127.0.0.1 HTTP/1.1\r\n\r\n"

/-- A request for a path of 1000 letters. -/
def longRequest : Text := ascii "GET /" ++ List.replicate 1000 97 ++ ascii " HTTP/1.1\r\n\r\n"

def plainRequest : Text := ascii "GET /a HTTP/1.1\r\nAccept: text/html\r\n\r\n"

theorem plainRequest_isOriginRequest :
    requestMethod plainRequest = ascii "GET" ∧
    IsOriginRequest (ascii "/a") (ascii "example.com")
      (buildOriginRequest (ascii "GET") (ascii "/a") (ascii "example.com") plainRequest true) :=
  ⟨by decide +kernel, ((buildOriginRequest_iff (show requestMethod plainRequest = ascii "GET" by
    decide +kernel) (ascii "example.com") true).mpr (by decide +kernel)).2⟩

/-- A line of the browser is sent as a header line, and a long path makes a request that is too
long to be sent. -/
theorem splitRequest_longRequest :
    (requestMethod splitRequest = ascii "GET" ∧
      lines (buildOriginRequest (requestMethod splitRequest) (requestPath splitRequest)
        (ascii "example.com") splitRequest true) =
        [ascii "GET /", ascii "X-Forwarded-For:127.0.0.1 HTTP/1.1", ascii "Host: example.com",
          userAgent, connectionClose, [], []] ∧
      ¬IsOriginRequest (requestPath splitRequest) (ascii "example.com")
        (buildOriginRequest (requestMethod splitRequest) (requestPath splitRequest)
          (ascii "example.com") splitRequest true)) ∧
    (requestMethod longRequest = ascii "GET" ∧
      kMaxRequestBytes < (buildOriginRequest (requestMethod longRequest) (requestPath longRequest)
        (ascii "example.com") longRequest true).length) := by
  have isGet : requestMethod longRequest = ascii "GET" := by decide +kernel
  refine ⟨⟨by decide +kernel, by decide +kernel, ?_⟩, isGet, ?_⟩
  · intro isRequest
    have broken : ¬IsLine (requestPath splitRequest) := by decide +kernel
    exact broken isRequest.isLine_path
  · rw [isGet, ← not_le, length_buildOriginRequest_le_iff]
    decide +kernel

end Structure

end PracticalCrypto.Surf.Demo
