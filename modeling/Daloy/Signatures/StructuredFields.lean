import Daloy.Foundations.Base64
import Daloy.Foundations.JsMap
import Daloy.Foundations.Text

/-! # Structured fields

The serializers and the parsers of `src/http-signatures.ts` for the subset of structured fields that
HTTP message signatures need. A parser is given the text from its position on and answers with what
it read and the text that is left.

The loops of the parsers are bounded by the length of the text: every turn reads at least one unit.
-/

namespace Daloy.Signatures
set_option autoImplicit false

open Daloy.Unicode Daloy.Text

inductive SignatureError
  | typeError (message : JsString)
  | sfParseError (message : JsString)
  | componentError (message : JsString)
  deriving DecidableEq

structure ComponentId where
  name : JsString
  paramName : Option JsString := none
  req : Bool := false
  deriving DecidableEq

structure SignatureParams where
  created : Option ℤ := none
  expires : Option ℤ := none
  keyid : Option JsString := none
  alg : Option JsString := none
  nonce : Option JsString := none
  tag : Option JsString := none
  deriving DecidableEq

def quotationMark : UInt16 := 0x22
def backslash : UInt16 := 0x5C
def semicolon : UInt16 := 0x3B
def equalsSign : UInt16 := 0x3D
def questionMark : UInt16 := 0x3F
def openParen : UInt16 := 0x28
def closeParen : UInt16 := 0x29
def space : UInt16 := 0x20
def tab : UInt16 := 0x09
def comma : UInt16 := 0x2C
def colon : UInt16 := 0x3A

/-! ## Serialization -/

def isPrintable (u : UInt16) : Bool := 0x20 ≤ u.toNat && u.toNat ≤ 0x7E

/-- `s.replace(/([\\"])/g, "\\$1")`. -/
def escape (s : JsString) : JsString :=
  s.flatMap fun u => if u = backslash ∨ u = quotationMark then [backslash, u] else [u]

def serializeSfString (s : JsString) : Except SignatureError JsString :=
  if s.all isPrintable then .ok (quotationMark :: (escape s ++ [quotationMark]))
  else .error (.typeError (js
    ("http-signatures: value contains a non-printable-ASCII character and cannot be " ++
      "serialized as a structured-field string: ") ++ Json.quote s))

/-- The `;name` parameter of a component. -/
def serializeName : Option JsString → Except SignatureError JsString
  | none => .ok []
  | some paramName => (serializeSfString paramName).map (js ";name=" ++ ·)

/-- The `;req` parameter of a component. -/
def serializeReq (req : Bool) : JsString := if req then js ";req" else []

def serializeComponentId (c : ComponentId) : Except SignatureError JsString := do
  let name ← serializeSfString c.name
  let paramName ← serializeName c.paramName
  return name ++ (paramName ++ serializeReq c.req)

def serializeParam {α : Type} (key : JsString) (write : α → Except SignatureError JsString)
    (value : Option α) : Except SignatureError JsString :=
  match value with
  | none => .ok []
  | some value => (write value).map fun text => semicolon :: (key ++ equalsSign :: text)

/-- `${value}` for a number: the safe integers, which are written in decimal. -/
def serializeNumber (n : ℤ) : Except SignatureError JsString := .ok (integerText n)

def serializeSignatureInput (components : List ComponentId) (params : SignatureParams) :
    Except SignatureError JsString := do
  let ids ← components.mapM serializeComponentId
  let created ← serializeParam (js "created") serializeNumber params.created
  let expires ← serializeParam (js "expires") serializeNumber params.expires
  let keyid ← serializeParam (js "keyid") serializeSfString params.keyid
  let alg ← serializeParam (js "alg") serializeSfString params.alg
  let nonce ← serializeParam (js "nonce") serializeSfString params.nonce
  let tag ← serializeParam (js "tag") serializeSfString params.tag
  return openParen :: ([space].intercalate ids ++ closeParen ::
    (created ++ (expires ++ (keyid ++ (alg ++ (nonce ++ tag))))))

/-! ## Parsing -/

def readSfChars : JsString → Except SignatureError (JsString × JsString)
  | [] => .error (.sfParseError (js "unterminated string"))
  | u :: src =>
    if u = backslash then
      match src with
      | [] => .error (.sfParseError (js "bad escape"))
      | next :: src =>
        if next ≠ quotationMark ∧ next ≠ backslash then .error (.sfParseError (js "bad escape"))
        else (readSfChars src).map fun r => (next :: r.1, r.2)
    else if u = quotationMark then .ok ([], src)
    else if !isPrintable u then .error (.sfParseError (js "bad string char"))
    else (readSfChars src).map fun r => (u :: r.1, r.2)

def readSfString (src : JsString) : Except SignatureError (JsString × JsString) :=
  if src.head? ≠ some quotationMark then .error (.sfParseError (js "expected string"))
  else readSfChars (src.drop 1)

/-- `[a-z*]`. -/
def isKeyStart (u : UInt16) : Bool := (0x61 ≤ u.toNat && u.toNat ≤ 0x7A) || u == 0x2A

/-- `[a-z0-9_\-.*]`. -/
def isKeyUnit (u : UInt16) : Bool :=
  (0x61 ≤ u.toNat && u.toNat ≤ 0x7A) || Json.isDigit u || u == 0x5F || u == 0x2D || u == 0x2E ||
    u == 0x2A

def readKey (src : JsString) : Except SignatureError (JsString × JsString) :=
  if (src.head?.map isKeyStart).getD false then
    .ok (src.takeWhile isKeyUnit, src.dropWhile isKeyUnit)
  else .error (.sfParseError (js "bad key start"))

inductive ParamValue
  | string (value : JsString)
  | number (value : ℤ)
  | boolean (value : Bool)
  deriving DecidableEq

def nearestDouble (n : ℕ) : ℕ :=
  let shift := Nat.log2 n - 52
  let unit := 1 <<< shift
  let kept := n / unit
  let dropped := n % unit
  if 2 * dropped < unit ∨ 2 * dropped = unit ∧ kept % 2 = 0 then kept * unit else (kept + 1) * unit

/-- `Number(text)` for the text of an integer. -/
def toNumber (n : ℤ) : ℤ := if n < 0 then -(nearestDouble n.natAbs : ℤ) else nearestDouble n.natAbs

def readParamValue (src : JsString) : Except SignatureError (ParamValue × JsString) :=
  if src.head? = some quotationMark then
    (readSfString src).map fun r => (.string r.1, r.2)
  else if src.head? = some questionMark then
    match src.drop 1 with
    | 0x31 :: src => .ok (.boolean true, src)
    | 0x30 :: src => .ok (.boolean false, src)
    | _ => .error (.sfParseError (js "bad boolean"))
  else
    match readInteger src with
    | none => .error (.sfParseError (js "bad param value"))
    | some (n, src) => .ok (.number (toNumber n), src)

abbrev RawParams := JsMap JsString ParamValue

def readParamsLoop : ℕ → RawParams → JsString → Except SignatureError (RawParams × JsString)
  | 0, params, src => .ok (params, src)
  | fuel + 1, params, src =>
    if src.head? ≠ some semicolon then .ok (params, src)
    else do
      let (key, src) ← readKey ((src.drop 1).dropWhile (· = space))
      if src.head? = some equalsSign then
        let (value, src) ← readParamValue (src.drop 1)
        readParamsLoop fuel (params.set key value) src
      else readParamsLoop fuel (params.set key (.boolean true)) src

def readParams (src : JsString) : Except SignatureError (RawParams × JsString) :=
  readParamsLoop src.length ∅ src

/-- `typeof value === "number"`. -/
def ParamValue.number? : ParamValue → Option ℤ
  | .number n => some n
  | _ => none

/-- `typeof value === "string"`. -/
def ParamValue.string? : ParamValue → Option JsString
  | .string s => some s
  | _ => none

def toSignatureParams (raw : RawParams) : SignatureParams where
  created := (raw.get? (js "created")).bind ParamValue.number?
  expires := (raw.get? (js "expires")).bind ParamValue.number?
  keyid := (raw.get? (js "keyid")).bind ParamValue.string?
  alg := (raw.get? (js "alg")).bind ParamValue.string?
  nonce := (raw.get? (js "nonce")).bind ParamValue.string?
  tag := (raw.get? (js "tag")).bind ParamValue.string?

def componentOf (name : JsString) (params : RawParams) : ComponentId where
  name := name
  paramName := (params.get? (js "name")).bind ParamValue.string?
  req := params.get? (js "req") = some (.boolean true)

structure ParsedInnerList where
  components : List ComponentId
  params : SignatureParams
  raw : JsString
  deriving DecidableEq

/-- The loop of `parseInnerList`. -/
def readComponents : ℕ → JsString → Except SignatureError (List ComponentId × JsString)
  | 0, src => .ok ([], src)
  | fuel + 1, src =>
    if src.isEmpty ∨ src.head? = some closeParen then .ok ([], src)
    else
      let src := src.dropWhile (· = space)
      if src.head? = some closeParen then .ok ([], src)
      else do
        let (name, src) ← readSfString src
        let (cParams, src) ← readParams src
        let (components, src) ← readComponents fuel (src.dropWhile (· = space))
        return (componentOf name cParams :: components, src)

def readPart (src rest : JsString) : JsString := src.take (src.length - rest.length)

def parseInnerList (src : JsString) : Except SignatureError (ParsedInnerList × JsString) :=
  if src.head? ≠ some openParen then .error (.sfParseError (js "expected inner list"))
  else do
    let (components, rest) ← readComponents src.length (src.drop 1)
    if rest.head? ≠ some closeParen then .error (.sfParseError (js "unterminated inner list"))
    let (rawParams, rest) ← readParams (rest.drop 1)
    return (⟨components, toSignatureParams rawParams, trim (readPart src rest)⟩, rest)

def isSeparator (u : UInt16) : Bool := u == space || u == tab || u == comma

/-- The loop of the dictionary parsers, with the parser of one member's value. -/
def readDictionary {α : Type} (readValue : JsString → Except SignatureError (α × JsString)) :
    ℕ → JsMap JsString α → JsString → Except SignatureError (JsMap JsString α)
  | 0, out, _ => .ok out
  | fuel + 1, out, src =>
    let src := src.dropWhile isSeparator
    if src.isEmpty then .ok out
    else do
      let (label, src) ← readKey src
      if src.head? ≠ some equalsSign then
        .error (.sfParseError (js "expected = after label"))
      let (value, src) ← readValue (src.drop 1)
      readDictionary readValue fuel (out.set label value) src

def parseSignatureInput (headerValue : JsString) :
    Except SignatureError (JsMap JsString ParsedInnerList) :=
  readDictionary parseInnerList (headerValue.length + 1) ∅ headerValue

def readByteSequence (src : JsString) : Except SignatureError (List UInt8 × JsString) :=
  if src.head? ≠ some colon then .error (.sfParseError (js "expected byte sequence"))
  else
    let text := (src.drop 1).takeWhile (· ≠ colon)
    match (src.drop 1).dropWhile (· ≠ colon) with
    | [] => .error (.sfParseError (js "unterminated byte sequence"))
    | _ :: src =>
      match decodeBase64 text with
      | none => .error (.sfParseError (js "bad base64"))
      | some bytes => .ok (bytes, src)

def parseSignature (headerValue : JsString) : Except SignatureError (JsMap JsString (List UInt8)) :=
  readDictionary readByteSequence (headerValue.length + 1) ∅ headerValue

end Daloy.Signatures
