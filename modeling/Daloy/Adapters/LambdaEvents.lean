import Daloy.Adapters.LambdaResponses
import Daloy.Adapters.OnePath
import Daloy.Egress.Guarded
import Daloy.Foundations.UrlPieces

/-! # Lambda events

`eventToRequest` of `src/adapters/lambda.ts`: the request of an API Gateway event, of either
version, and the handler around it.

* `eventToRequest`: no request where the source throws.
* `tab_moves`: a tab in a dot segment leads to another route.
-/

namespace Daloy.Adapters.Lambda
set_option autoImplicit false

open Daloy.Unicode Daloy.Http Daloy.UrlStandard

/-! ## Events -/

abbrev Member (α : Type) := Option (Option α)

/-- `requestContext.http`. -/
structure HttpContext where
  method : Option JsString := none
  path : Option JsString := none
  sourceIp : Option JsString := none

structure RequestContext where
  http : Option HttpContext := none
  domainName : Option JsString := none
  path : Option JsString := none
  identitySourceIp : Option JsString := none

/-- `LambdaEvent`: the members of both versions, the fields in the order of `Object.entries`. -/
structure LambdaEvent where
  version : Option JsString := none
  path : Option JsString := none
  httpMethod : Option JsString := none
  rawPath : Member JsString := none
  rawQueryString : Member JsString := none
  headers : List (JsString × Option JsString) := []
  multiValueHeaders : List (JsString × Option (List JsString)) := []
  cookies : List JsString := []
  queryStringParameters : List (JsString × Option JsString) := []
  multiValueQueryStringParameters : List (JsString × Option (List JsString)) := []
  requestContext : RequestContext := {}
  body : Option JsString := none
  isBase64Encoded : Bool := false

def isV2Event (event : LambdaEvent) : Bool :=
  event.version = some (js "2.0") || event.rawPath.isSome || event.rawQueryString.isSome ||
    event.requestContext.http.isSome

/-! ## Queries -/

def keptInForm (b : UInt8) : Bool :=
  (0x30 ≤ b.toNat && b.toNat ≤ 0x39) || (0x41 ≤ b.toNat && b.toNat ≤ 0x5A) ||
    (0x61 ≤ b.toNat && b.toNat ≤ 0x7A) || b ∈ [0x2A, 0x2D, 0x2E, 0x5F]

def formText (s : JsString) : JsString :=
  (encodeText s).flatMap fun b =>
    if b = 0x20 then js "+" else if keptInForm b then [UInt16.ofNat b.toNat] else escape b

/-- `String(values)`, for `URLSearchParams`. -/
def searchParams (values : List (JsString × JsString)) : JsString :=
  (js "&").intercalate (values.map fun e => formText e.1 ++ js "=" ++ formText e.2)

def queryStringForV1 (event : LambdaEvent) : JsString :=
  let values := event.multiValueQueryStringParameters.flatMap fun e =>
    (e.2.getD []).map fun value => (e.1, value)
  if 0 < values.length then searchParams values
  else searchParams (event.queryStringParameters.filterMap fun e => e.2.map fun value => (e.1, value))

/-! ## Fields -/

def isFieldBlank (u : UInt16) : Bool := u ∈ [0x09, 0x0A, 0x0D, 0x20]

def fieldValue (value : JsString) : Option HeaderValue :=
  let value := (value.dropWhile isFieldBlank).rdropWhile isFieldBlank
  if h : ∀ u ∈ value, u.toNat < 0x100 ∧ u ≠ 0x00 ∧ u ≠ 0x0A ∧ u ≠ 0x0D then some ⟨value, h⟩
  else none

/-- `headers.set(name, value)`, `none` where it throws. -/
def setField (headers : Headers) (name value : JsString) : Option Headers := do
  if ¬ IsToken name then none
  let value ← fieldValue value
  return ⟨headers.fields.set (toLowerCase name) value⟩

def singleFields (headers : Headers) (event : LambdaEvent) : Option Headers :=
  event.headers.foldlM
    (fun headers e =>
      match e.2 with
      | none => some headers
      | some value => setField headers e.1 value) headers

def multiFields (headers : Headers) (event : LambdaEvent) : Option Headers :=
  event.multiValueHeaders.foldlM
    (fun headers e =>
      match e.2 with
      | none | some [] => some headers
      | some values =>
        let separator := if toLowerCase e.1 = js "cookie" then js "; " else js ", "
        setField headers e.1 (separator.intercalate values)) headers

def eventHeaders (event : LambdaEvent) : Option Headers := do
  let headers ← singleFields {} event
  let headers ← multiFields headers event
  if event.cookies = [] then some headers
  else setField headers (js "cookie") ((js "; ").intercalate event.cookies)

/-- `headers.get(name)`, for a name in lower case. -/
def field (headers : Headers) (name : JsString) : Option JsString :=
  (headers.fields.get? name).map HeaderValue.units

/-! ## Paths and authorities -/

/-- `isPlainAuthority`, which mirrors that of the Node adapter. -/
def isPlainAuthority (host : JsString) : Bool := Adapters.isPlainAuthority host

def forwardedProto (raw : Option JsString) : JsString :=
  match raw with
  | none => js "https"
  | some raw =>
    let token := lowerAscii (Text.trim (raw.rtakeWhile (· ≠ Http.comma)))
    if token = js "http" then js "http" else js "https"

/-- `s.replaceAll("%2e", ".")`. -/
def replaceEscapedDots : JsString → JsString
  | 0x25 :: 0x32 :: 0x65 :: rest => fullStop :: replaceEscapedDots rest
  | u :: rest => u :: replaceEscapedDots rest
  | [] => []

/-- A piece that `isPlainEventPath` lets through. No letter but an `E` has its lower case in one of
the two texts. -/
def isPlainPiece (segment : JsString) : Bool :=
  segment.length = 0 || 6 < segment.length ||
    (replaceEscapedDots (lowerAscii segment) ≠ js "." &&
      replaceEscapedDots (lowerAscii segment) ≠ js "..")

def isPlainEventPath (path : JsString) : Bool :=
  !path.contains reverseSolidus && !path.contains questionMark && !path.contains numberSign &&
    (Http.splitOn solidus path).all isPlainPiece

/-! ## Requests -/

/-- What `setConnInfo` is given. -/
structure ConnInfo where
  remoteAddress : JsString
  tls : Bool
  deriving DecidableEq

structure Request where
  url : Url
  method : JsString
  headers : Headers
  body : Option (List UInt8)
  connInfo : Option ConnInfo

def eventMethod (event : LambdaEvent) : JsString :=
  (if isV2Event event then event.requestContext.http.bind HttpContext.method
    else event.httpMethod).getD (js "GET")

def rawEventPath (event : LambdaEvent) : JsString :=
  (if isV2Event event then
      event.rawPath.join.orElse fun _ => event.requestContext.http.bind HttpContext.path
    else event.path.orElse fun _ => event.requestContext.path).getD (js "/")

def eventPath (event : LambdaEvent) : JsString :=
  if (rawEventPath event).head? = some solidus then rawEventPath event
  else solidus :: rawEventPath event

def eventQuery (event : LambdaEvent) : JsString :=
  if isV2Event event then event.rawQueryString.join.getD [] else queryStringForV1 event

def eventHost (event : LambdaEvent) (headers : Headers) : JsString :=
  (((field headers (js "host")).orElse fun _ => event.requestContext.domainName).getD
    (js "localhost"))

def eventProto (trustProto : Bool) (headers : Headers) : JsString :=
  if trustProto then forwardedProto (field headers (js "x-forwarded-proto")) else js "https"

/-- `init.body`, and the type that it brings. -/
def eventBody (event : LambdaEvent) (method : JsString) :
    Option (Option (List UInt8 × Option HeaderValue)) :=
  if method ≠ js "GET" ∧ method ≠ js "HEAD" then
    match event.body with
    | none => some none
    | some body =>
      if event.isBase64Encoded then (atob body).map fun bytes => some (bytes, none)
      else some (some (encodeText body, some ⟨js "text/plain;charset=UTF-8", by decide⟩))
  else some none

def eventConnInfo (event : LambdaEvent) : Option ConnInfo := do
  let sourceIp ← if isV2Event event then event.requestContext.http.bind HttpContext.sourceIp
    else event.requestContext.identitySourceIp
  if sourceIp ≠ [] ∧ (Egress.parseIp sourceIp).isSome then
    some { remoteAddress := sourceIp, tls := true }
  else none

section Parsing

variable [UrlParser]

open UrlParser

/-- `eventToRequest`, `none` where it throws. -/
def eventToRequest (event : LambdaEvent) (trustProto : Bool) : Option Request := do
  let headers ← eventHeaders event
  let host := eventHost event headers
  if !isPlainAuthority host then none
  let proto := eventProto trustProto headers
  let path := eventPath event
  if !isPlainEventPath path then none
  let init ← eventBody event (eventMethod event)
  let url ← parse (proto ++ js "://" ++ host ++ (path ++ searchText (eventQuery event)))
  let method ← Egress.normalizeMethod (eventMethod event)
  if init.isSome ∧ method ∈ [js "GET", js "HEAD"] then none
  return {
    url, method
    headers := Egress.withContentType headers (init.bind Prod.snd)
    body := init.map Prod.fst
    connInfo := eventConnInfo event }

def badRequestResponse : Response where
  status := 400
  headers := { entries := [(js "content-type", js "application/problem+json")] }
  body := some { chunks := [encodeText (js ("\x7b\"type\":\"https://daloyjs.dev/errors/bad-request\"," ++
    "\"title\":\"Bad Request\",\"status\":400\x7d"))] }

/-- The handler of `toLambdaHandler`, over what `app.fetch` answers. -/
def lambdaHandler (native trustProto : Bool) (app : Request → Response) (event : LambdaEvent) :
    Option LambdaResponse :=
  match eventToRequest event trustProto with
  | none => responseToLambda native badRequestResponse (isV2Event event)
  | some request => responseToLambda native (app request) (isV2Event event)

/-- The handler of `toLambdaStreamHandler`, up to the pump. -/
def lambdaStreamHandler (native trustProto : Bool) (app : Request → Response)
    (event : LambdaEvent) : StreamRun :=
  match eventToRequest event trustProto with
  | none => .start native badRequestResponse
  | some request => .start native (app request)

/-! ## The parts of a request -/

omit [UrlParser] in
theorem forwardedProto_http (raw : Option JsString) : IsHttp (forwardedProto raw) := by
  rw [forwardedProto.eq_def]
  split
  · exact .inr rfl
  · dsimp only
    split
    · exact .inl rfl
    · exact .inr rfl

omit [UrlParser] in
theorem eventProto_http (trustProto : Bool) (headers : Headers) :
    IsHttp (eventProto trustProto headers) := by
  rw [eventProto]
  split
  · exact forwardedProto_http _
  · exact .inr rfl

theorem eventToRequest_eq_some {event : LambdaEvent} {trustProto : Bool} {request : Request}
    (h : eventToRequest event trustProto = some request) :
    ∃ headers proto, eventHeaders event = some headers ∧ IsHttp proto ∧
      isPlainAuthority (eventHost event headers) = true ∧
      isPlainEventPath (eventPath event) = true ∧
      parse (proto ++ js "://" ++ eventHost event headers ++
        (eventPath event ++ searchText (eventQuery event))) = some request.url := by
  rw [eventToRequest] at h
  obtain ⟨headers, hheaders, h⟩ := Option.bind_eq_some_iff.mp h
  dsimp only at h
  by_cases hhost : isPlainAuthority (eventHost event headers) = true
  · by_cases hpath : isPlainEventPath (eventPath event) = true
    · simp only [hhost, hpath, Bool.not_true, Bool.false_eq_true, if_false] at h
      obtain ⟨init, -, h⟩ := Option.bind_eq_some_iff.mp h
      obtain ⟨url, hurl, h⟩ := Option.bind_eq_some_iff.mp h
      obtain ⟨method, -, h⟩ := Option.bind_eq_some_iff.mp h
      refine ⟨headers, _, hheaders, eventProto_http trustProto headers, hhost, hpath, ?_⟩
      · split at h
        · simp at h
        · rw [hurl, ← Option.some.inj h]
    · simp [hhost, hpath] at h
  · simp [hhost] at h

omit [UrlParser] in
theorem head_eventPath (event : LambdaEvent) : (eventPath event).head? = some solidus := by
  rw [eventPath]
  split
  · assumption
  · rfl

omit [UrlParser] in
theorem isPlainPiece_not_dot : ∀ s ∈ dotSpellings, isPlainPiece s = false := by decide

omit [UrlParser] in
theorem isPath_of_plain {path : JsString} (hhead : path.head? = some solidus)
    (h : isPlainEventPath path = true) :
    IsPath path ∧ ∀ s ∈ pieces path, s ∉ dotSpellings := by
  simp only [isPlainEventPath, Bool.and_eq_true, Bool.not_eq_true', List.contains_eq_mem,
    decide_eq_false_iff_not, List.all_eq_true] at h
  obtain ⟨⟨⟨hback, hquestion⟩, hnumber⟩, hpieces⟩ := h
  have hpath : IsPath path := by
    refine ⟨hhead, fun u hu => ⟨fun heq => hback (heq ▸ hu), ?_⟩⟩
    rw [← Bool.not_eq_true]
    intro hends
    simp only [endsPath, Bool.or_eq_true, beq_iff_eq] at hends
    obtain rfl | rfl := hends
    · exact hquestion hu
    · exact hnumber hu
  refine ⟨hpath, fun s hs hdot => ?_⟩
  have hplain := hpieces s (by
    rw [Http.splitOn, hpath.splitOn_eq]
    exact List.mem_cons_of_mem _ hs)
  rw [isPlainPiece_not_dot s hdot] at hplain
  cases hplain

/-! ## The path of the URL -/

/-- The URL of a request has the path of the event, and its authority is that of the host alone. -/
structure Stays (event : LambdaEvent) (request : Request) : Prop where
  path : SamePath (eventPath event) request.url.pathname
  authority : ∃ headers, eventHeaders event = some headers ∧
    parseAuthority request.url.protocol (eventHost event headers) = some request.url.authority

theorem request_url {event : LambdaEvent} {trustProto : Bool} {request : Request}
    (h : eventToRequest event trustProto = some request) :
    (∃ headers, eventHeaders event = some headers ∧
      parseAuthority request.url.protocol (eventHost event headers) =
        some request.url.authority) ∧
    request.url.segments =
      segmentsOf (clean (eventPath event ++ searchText (eventQuery event))) := by
  obtain ⟨headers, proto, hheaders, hproto, hhost, -, hurl⟩ := eventToRequest_eq_some h
  rw [parse_origin hproto (plainAuthority hhost)
    (by rw [List.head?_append, head_eventPath]; rfl)] at hurl
  obtain ⟨authority, hauthority, hurl⟩ := Option.map_eq_some_iff.mp hurl
  rw [← hurl]
  exact ⟨⟨headers, hheaders, hauthority⟩, rfl⟩

theorem stays_iff {event : LambdaEvent} {trustProto : Bool} {request : Request}
    (h : eventToRequest event trustProto = some request) :
    Stays event request ↔ Unstripped (eventPath event) (eventQuery event) := by
  obtain ⟨-, -, -, -, -, hplain, -⟩ := eventToRequest_eq_some h
  obtain ⟨hpath, hdots⟩ := isPath_of_plain (head_eventPath event) hplain
  obtain ⟨hauthority, hsegments⟩ := request_url h
  rw [← samePath_iff hpath hdots, ← hsegments]
  exact ⟨fun hstays => hstays.path, fun hsame => ⟨hsame, hauthority⟩⟩

/-- **Where a request goes.** The URL of an event that is let through has the path of the event
exactly where cleaning leaves that path; every other event is answered with 400. -/
theorem never_moved_iff (native trustProto : Bool) (app : Request → Response)
    (event : LambdaEvent) :
    (∀ request, eventToRequest event trustProto = some request →
      (Stays event request ↔ Unstripped (eventPath event) (eventQuery event))) ∧
    (eventToRequest event trustProto = none →
      (∃ out, lambdaHandler native trustProto app event = some out ∧ out.statusCode = 400) ∧
      (lambdaStreamHandler native trustProto app event).metadata.statusCode = 400) := by
  refine ⟨fun request h => stays_iff h, fun h => ?_⟩
  rw [lambdaHandler, lambdaStreamHandler, h]
  have hdelivers : Delivers badRequestResponse := by
    rintro body hbody
    obtain rfl : _ = body := Option.some.inj hbody
    exact ⟨rfl, rfl⟩
  obtain ⟨out, hout, hstatus, -⟩ := @responseToLambda_eq native _ hdelivers (isV2Event event)
  exact ⟨⟨out, hout, hstatus⟩, by rw [start_metadata]; rfl⟩

end Parsing

def eventFor (path : JsString) : LambdaEvent where
  rawPath := some (some path)
  headers := [(js "host", some (js "api.example"))]

def requestFor (segments : List JsString) : Request where
  url := { protocol := js "https:", authority := { hostname := js "api.example" }, segments
           query := none }
  method := js "GET"
  headers := ⟨(∅ : JsMap JsString HeaderValue).set (js "host") ⟨js "api.example", by decide⟩⟩
  body := none
  connInfo := none

theorem never_moved_users :
    @Stays hostNameParser (eventFor (js "/users/4%32")) (requestFor [js "users", js "4%32"]) :=
  ((@never_moved_iff hostNameParser true false (fun _ => badRequestResponse)
    (eventFor (js "/users/4%32"))).1 (requestFor [js "users", js "4%32"]) rfl).mpr
    ⟨by decide, fun _ u hu => by
      obtain rfl : 0x32 = u := Option.some.inj hu
      rfl⟩

theorem tab_moves :
    @eventToRequest hostNameParser (eventFor (js "/admin/.\t./public")) false =
      some (requestFor [js "public"]) ∧
    ¬ @Stays hostNameParser (eventFor (js "/admin/.\t./public")) (requestFor [js "public"]) := by
  refine ⟨rfl, fun hstays => ?_⟩
  have hlength := List.Forall₂.length_eq (@Stays.path hostNameParser _ _ hstays)
  revert hlength
  decide

end Daloy.Adapters.Lambda
