import Daloy.Signatures.StructuredFields
import Mathlib.Data.List.Infix

/-! # The signature base

`resolveComponentValue`, `buildSignatureBase` and `signMessage` of `src/http-signatures.ts`.

The getters of a `URL` are fields and `Headers.get` is a function, of any values; so is the signing
itself, and the case mapping of the language.
-/

namespace Daloy.Signatures
set_option autoImplicit false

open Daloy.Unicode Daloy.Text

/-- `toUpperCase` and `toLowerCase`. -/
class CaseMapping where
  toUpperCase : JsString → JsString
  toLowerCase : JsString → JsString

abbrev asciiCaseMapping : CaseMapping where
  toUpperCase s := s.map fun u => if 0x61 ≤ u.toNat ∧ u.toNat ≤ 0x7A then u - 0x20 else u
  toLowerCase s := s.map fun u => if 0x41 ≤ u.toNat ∧ u.toNat ≤ 0x5A then u + 0x20 else u

structure Url where
  href : JsString
  host : JsString
  protocol : JsString
  pathname : JsString
  search : JsString
  searchParams : List (JsString × JsString)

/-- `MessageContext`. `header` is `headers.get`, which throws on what is no header name. -/
structure MessageContext where
  method : JsString
  url : Url
  header : JsString → Except SignatureError (Option JsString)
  status : Option ℕ := none

/-- `GET https://example.com/a?q=1`, with a `host` header. -/
def exampleMessage : MessageContext where
  method := js "get"
  url :=
    { href := js "https://example.com/a?q=1", host := js "example.com", protocol := js "https:"
      pathname := js "/a", search := js "?q=1", searchParams := [(js "q", js "1")] }
  header name := .ok (if name = js "host" then some (js "example.com") else none)

def lineFeed : UInt16 := 0x0A
def carriageReturn : UInt16 := 0x0D
def atSign : UInt16 := 0x40

/-! ## Component values -/

def hexUpper (n : ℕ) : UInt16 := UInt16.ofNat (if n < 10 then 0x30 + n else 0x41 + (n - 10))

/-- A byte that `encodeQueryParamComponent` leaves as it is. -/
def isQuerySafe (b : UInt8) : Bool :=
  (0x30 ≤ b.toNat && b.toNat ≤ 0x39) || (0x41 ≤ b.toNat && b.toNat ≤ 0x5A) ||
    (0x61 ≤ b.toNat && b.toNat ≤ 0x7A) || b == 0x2A || b == 0x2D || b == 0x2E || b == 0x5F

def encodeQueryParamComponent (s : JsString) : JsString :=
  (encodeText s).flatMap fun b =>
    if isQuerySafe b then [UInt16.ofNat b.toNat]
    else [0x25, hexUpper (b.toNat / 16), hexUpper (b.toNat % 16)]

def isBlank (u : UInt16) : Bool := u == space || u == tab

/-- What follows a line break, with the blanks around it, at the front of a text. -/
def afterLineBreak (s : JsString) : Option JsString :=
  match s.dropWhile isBlank with
  | u :: v :: rest =>
    if u = carriageReturn ∧ v = lineFeed then some (rest.dropWhile isBlank)
    else if u = lineFeed then some ((v :: rest).dropWhile isBlank)
    else none
  | [u] => if u = lineFeed then some [] else none
  | [] => none

/-- `s.replace(/[ \t]*\r?\n[ \t]*/g, " ")`, with the length of the text as its bound. -/
def unfoldLines : ℕ → JsString → JsString
  | 0, s => s
  | _ + 1, [] => []
  | fuel + 1, u :: s =>
    match afterLineBreak (u :: s) with
    | some rest => space :: unfoldLines fuel rest
    | none => u :: unfoldLines fuel s

/-- `s.replace(/:$/, "")`. -/
def withoutColon (s : JsString) : JsString := if s.getLast? = some colon then s.dropLast else s

variable [CaseMapping]

open CaseMapping

/-- The `;req` parameter, where it is not supported. -/
def reqNotSupported (name : JsString) : SignatureError :=
  .componentError (js "the ;req parameter is not supported on " ++ name ++ js " in this context")

def resolveQueryParam (c : ComponentId) (msg : MessageContext) : Except SignatureError JsString :=
  match c.paramName with
  | none => .error (.componentError (js "@query-param requires a ;name parameter"))
  | some paramName =>
    let values := (msg.url.searchParams.filter fun p =>
      encodeQueryParamComponent p.1 = paramName).map Prod.snd
    match values with
    | [] => .error (.componentError
        (js "@query-param;name=\"" ++ paramName ++ js "\" is not present in the query"))
    | [value] => .ok (encodeQueryParamComponent value)
    | _ => .error (.componentError (js "@query-param;name=\"" ++ paramName ++ js "\" appears " ++
        Json.NumberText.write values.length ++ js
          (" times; duplicate query parameters are not supported (parameter pollution risk). " ++
            "Cover `@query` or `@target-uri` instead, or send a single value.")))

def resolveDerived (c : ComponentId) (msg : MessageContext) : Except SignatureError JsString :=
  if c.name = js "@method" then .ok (toUpperCase msg.method)
  else if c.name = js "@target-uri" then .ok msg.url.href
  else if c.name = js "@authority" then .ok (toLowerCase msg.url.host)
  else if c.name = js "@scheme" then .ok (toLowerCase (withoutColon msg.url.protocol))
  else if c.name = js "@request-target" then .ok (msg.url.pathname ++ msg.url.search)
  else if c.name = js "@path" then .ok msg.url.pathname
  else if c.name = js "@query" then
    .ok (if msg.url.search = [] then js "?" else msg.url.search)
  else if c.name = js "@query-param" then resolveQueryParam c msg
  else if c.name = js "@status" then
    match msg.status with
    | none => .error (.componentError (js "@status is only valid for responses"))
    | some status => .ok (Json.NumberText.write status)
  else .error (.componentError (js "unknown derived component " ++ c.name))

def resolveField (c : ComponentId) (msg : MessageContext) : Except SignatureError JsString := do
  if c.name ≠ toLowerCase c.name then
    .error (.componentError (js "field component name must be lowercase: " ++ c.name))
  if c.req then
    .error (.componentError (js "the ;req parameter is not supported in this context"))
  match ← msg.header c.name with
  | none => .error (.componentError (js "covered header \"" ++ c.name ++ js "\" is not present"))
  | some value => .ok (unfoldLines (trim value).length (trim value))

def resolveComponentValue (c : ComponentId) (msg : MessageContext) :
    Except SignatureError JsString :=
  if c.name = js "@signature-params" then
    .error (.componentError (js "@signature-params cannot be a covered component"))
  else if c.name.head? = some atSign then
    if c.req then .error (reqNotSupported c.name) else resolveDerived c msg
  else resolveField c msg

/-! ## The base -/

/-- The lines of the covered components, with the identifiers of the lines before them. -/
def componentLines (msg : MessageContext) :
    (seen : List JsString) → List ComponentId → Except SignatureError JsString
  | _, [] => .ok []
  | seen, c :: components => do
    let id ← serializeComponentId c
    if id ∈ seen then
      .error (.componentError (js "duplicate covered component " ++ id))
    let value ← resolveComponentValue c msg
    if lineFeed ∈ value ∨ carriageReturn ∈ value then
      .error (.componentError (js "component " ++ id ++ js " value contains a line break"))
    let lines ← componentLines msg (id :: seen) components
    return id ++ (colon :: space :: (value ++ lineFeed :: lines))

def buildSignatureBase (components : List ComponentId) (signatureParamsValue : JsString)
    (msg : MessageContext) : Except SignatureError JsString := do
  let lines ← componentLines msg [] components
  return lines ++ (js "\"@signature-params\": " ++ signatureParamsValue)

/-! ## Signing -/

/-- `s.replace(/^"|"$/g, "")`. -/
def unquoted (s : JsString) : JsString :=
  let s := if s.head? = some quotationMark then s.drop 1 else s
  if s.getLast? = some quotationMark then s.dropLast else s

def bareParam (c : ComponentId) (part : JsString) : ComponentId :=
  if part = js "req" then { c with req := true }
  else if js "name=" <+: part then { c with paramName := some (unquoted (part.drop 5)) }
  else c

def parseComponentSpec (spec : JsString) : Except SignatureError ComponentId :=
  if spec.head? = some quotationMark then do
    let (name, rest) ← readSfString spec
    let (params, _) ← readParams rest
    return componentOf name params
  else
    match spec.splitOn semicolon with
    | name :: parts => .ok (parts.foldl bareParam { name })
    | [] => .ok { name := spec }

/-- `SignMessageOptions`, less the key. -/
structure SignMessageOptions where
  message : MessageContext
  components : Option (List JsString) := none
  alg : JsString
  keyid : Option JsString := none
  label : Option JsString := none
  created : Option ℤ := none
  expires : Option ℤ := none
  nonce : Option JsString := none
  tag : Option JsString := none
  includeAlg : Bool := true

structure MessageSignature where
  signatureInput : JsString
  signature : JsString
  signatureBase : JsString
  label : JsString
  deriving DecidableEq

def defaultSignatureLabel : JsString := js "sig1"

/-- The parameters that are signed; `now` is the clock, in milliseconds. -/
def SignMessageOptions.params (opts : SignMessageOptions) (now : ℤ) : SignatureParams where
  created := some (opts.created.getD (now / 1000))
  expires := opts.expires
  keyid := opts.keyid
  alg := if opts.includeAlg then some opts.alg else none
  nonce := opts.nonce
  tag := opts.tag

def SignMessageOptions.componentIds (opts : SignMessageOptions) :
    Except SignatureError (List ComponentId) :=
  (opts.components.getD [js "@method", js "@target-uri"]).mapM parseComponentSpec

/-- `signMessage(opts)`, where `sign` imports the key and signs the bytes. -/
def signMessage (sign : List UInt8 → Except SignatureError (List UInt8))
    (opts : SignMessageOptions) (now : ℤ) : Except SignatureError MessageSignature := do
  let label := opts.label.getD defaultSignatureLabel
  let components ← opts.componentIds
  let signatureParamsValue ← serializeSignatureInput components (opts.params now)
  let base ← buildSignatureBase components signatureParamsValue opts.message
  let sig ← sign (encodeText base)
  return {
    signatureInput := label ++ equalsSign :: signatureParamsValue
    signature := label ++ equalsSign :: colon :: (encodeBase64 sig ++ [colon])
    signatureBase := base
    label }

end Daloy.Signatures
