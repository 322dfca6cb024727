import Daloy.Foundations.JsonTexts
import Daloy.Foundations.TextDecoding
import Daloy.Jwt.Keys
import Daloy.Jwt.Segments

/-! # The signer of tokens

`createJwtSigner` for an algorithm of the HMAC family, and the tokens it issues.

* `parse_segment`: a signed segment is read back as the data that were signed, less the forbidden
  members.
* `lookup_headerJson`: what every token's header says.
-/

namespace Daloy.Jwt
set_option autoImplicit false

open Daloy.Unicode Daloy.Json Daloy.Security

section
variable {ν : Type}

/-! ## The signer -/

/-- What the signer closes over: a key of the HMAC family, and a header without `crit`. -/
structure Signer (ν : Type) where
  alg : JwtAlgorithm
  key : Except Rejection CryptoKey
  maxLifetimeSeconds : Quantity
  allowNoExp : Bool
  header : PlainObject ν
  symmetric : isSymmetric alg = true
  policy : ∀ k, key = .ok k → k.name = .HMAC ∧ k.hash = (algParams alg).hash
  noCrit : header.members.lookup (js "crit") = none

structure JwtSignerOptions (ν : Type) where
  alg : JwtAlgorithm
  key : JwtKeyMaterial ν
  maxLifetimeSeconds : Quantity
  acknowledgeNoExp : Bool
  production : Bool
  secureDefaults : Bool
  header : PlainObject ν

def isPositive : Quantity → Bool
  | .finite x => 0 < x
  | _ => false

/-- The checks on a secret of bytes; `isGuessable` is `weakHsKeyReason`. -/
def checkSecret (isGuessable : List UInt8 → Bool) (production : Bool) :
    JwtKeyMaterial ν → Except JwtErrorCode Unit
  | .bytes secret =>
    if secret.length < MIN_HS_KEY_BYTES then .error .weakHsSecret
    else if production && isGuessable secret then .error .weakHsSecret
    else .ok ()
  | _ => .ok ()

theorem policy_importKey {subtle : Subtle ν} {alg : JwtAlgorithm} {usage : KeyUsage}
    {material : JwtKeyMaterial ν} (hsymmetric : isSymmetric alg = true) (k : CryptoKey)
    (h : importKey subtle alg usage material = .ok k) :
    k.name = .HMAC ∧ k.hash = (algParams alg).hash := by
  obtain ⟨hname, hhash⟩ := importKey_spec h
  exact ⟨hname.trans (isSymmetric_iff.mp hsymmetric), hhash hsymmetric⟩

/-- `createJwtSigner(opts)` for an algorithm of the HMAC family. -/
def createJwtSigner (subtle : Subtle ν) (isGuessable : List UInt8 → Bool)
    (opts : JwtSignerOptions ν) (hsymmetric : isSymmetric opts.alg = true) :
    Except JwtErrorCode (Signer ν) := do
  checkSecret isGuessable opts.production opts.key
  if !isPositive opts.maxLifetimeSeconds then throw .missingMaxLifetime
  if opts.acknowledgeNoExp && opts.production && opts.secureDefaults then
    throw .ackNoExpRefusedInProduction
  if hcrit : opts.header.members.lookup (js "crit") = none then
    return {
      alg := opts.alg
      key := importKey subtle opts.alg .sign opts.key
      maxLifetimeSeconds := opts.maxLifetimeSeconds
      allowNoExp := opts.acknowledgeNoExp
      header := opts.header
      symmetric := hsymmetric
      policy := policy_importKey hsymmetric
      noCrit := hcrit }
  else throw .unsupportedCrit

def Signer.hash (s : Signer ν) : HashName := ((algParams s.alg).hash).getD .SHA256

theorem Signer.hash_eq (s : Signer ν) : (algParams s.alg).hash = some s.hash := by
  have hsymmetric := s.symmetric
  rw [Signer.hash]
  cases halg : s.alg <;> first | rfl | (rw [halg] at hsymmetric; cases hsymmetric)

end

section
variable {ν : Type} [NumberText ν]

/-! ## What is signed -/

/-- `{ ...header, alg, typ: "JWT" }`. -/
def headerMembers (s : Signer ν) : List (JsString × Data ν) :=
  insertMember (insertMember s.header.members (js "alg", .str s.alg.name)) (js "typ", .str (js "JWT"))

def headerJson (s : Signer ν) : List (JsString × Value ν) := membersToJson (headerMembers s)

def dot : UInt16 := 0x2E

/-- `b64urlEncode(ENC.encode(JSON.stringify(members)))`. -/
def segment (members : List (JsString × Value ν)) : JsString :=
  b64urlEncode (encodeText (stringify (.obj members)))

def signingInput (s : Signer ν) (payload : PlainObject ν) : JsString :=
  segment (headerJson s) ++ dot :: segment payload.json

omit [NumberText ν] in
theorem wellFormed_headerJson (s : Signer ν) : (Value.obj (headerJson s)).WellFormed := by
  have halg : arrayIndex (js "alg") = none := by decide
  have htyp : arrayIndex (js "typ") = none := by decide
  rw [Value.WellFormed]
  refine ⟨ownOrdered_membersToJson ?_, wellFormed_membersToJson _ ?_⟩
  · exact ownOrdered_insertMember _ htyp (ownOrdered_insertMember _ halg s.header.ordered)
  · exact membersWellFormed_insertMember htyp
      (membersWellFormed_insertMember halg s.header.wellFormed trivial) trivial

omit [NumberText ν] in
theorem lookup_headerJson (s : Signer ν) (key : JsString) :
    (headerJson s).lookup key =
      if key = js "typ" then some (.str (js "JWT"))
      else if key = js "alg" then some (.str s.alg.name)
      else (s.header.members.lookup key).bind toJson := by
  have halg : arrayIndex (js "alg") = none := by decide
  have htyp : arrayIndex (js "typ") = none := by decide
  have hordered := ownOrdered_insertMember (.str (js "JWT")) htyp
    (ownOrdered_insertMember (.str s.alg.name) halg s.header.ordered)
  rw [headerJson, headerMembers, lookup_membersToJson hordered.1, lookup_insertMember _ htyp,
    lookup_insertMember _ halg]
  split
  · rfl
  · split <;> rfl

/-! ## What is in a segment -/

/-- The reader of a segment, `none` for what is no base64url or no JSON. -/
def parseSegment (input : JsString) : Option (Value ν) := do
  let bytes ← b64urlDecode input
  let value ← parse (decodeLossy bytes)
  return strip value

theorem parse_segment {members : List (JsString × Value ν)} (h : (Value.obj members).WellFormed) :
    parseSegment (segment members) = some (.obj (stripMembers members)) := by
  have hdecode : b64urlDecode (segment members) =
      some (encodeText (stringify (.obj members))) := (b64urlDecode_eq_some _ _).mpr rfl
  have htext : utf16 (scalars (stringify (Value.obj members))) = stringify (Value.obj members) :=
    wellFormed_stringify (Value.obj members)
  have hmark : (scalars (stringify (Value.obj members))).head? ≠ some byteOrderMark := by
    intro hhead
    obtain ⟨m, hm⟩ := List.head?_eq_some_iff.mp hhead
    obtain ⟨u, rest, hu, hascii⟩ := head_stringify (Value.obj members)
    have hunit : (stringify (Value.obj members)).head? = some 0xFEFF := by
      rw [← htext, hm]
      rfl
    rw [hu, List.head?_cons] at hunit
    rw [Option.some.inj hunit] at hascii
    exact absurd hascii (by decide)
  have hlossy : decodeLossy (encodeText (stringify (.obj members))) = stringify (.obj members) := by
    rw [decodeLossy, encodeText, lossy_of_decode (decodeUtf8_encode _), stripBom_eq_self.mpr hmark]
    exact htext
  rw [parseSegment, hdecode, Option.bind_eq_bind, Option.bind_some, hlossy, parse_stringify h]
  rfl

end

/-! ## Signing -/

section
variable {ν : Type} [JsonDouble ν]

def checkPayload (s : Signer ν) (payload : PlainObject ν) (now : Quantity) :
    Except JwtErrorCode Unit :=
  let iat := (payload.get "iat").number?.getD now
  match payload.get "exp" with
  | .undefined => if s.allowNoExp then .ok () else .error .missingExp
  | expRaw =>
    match expRaw.number? with
    | none => .error .invalidExp
    | some exp =>
      if !isFinite exp then .error .invalidExp
      else if s.maxLifetimeSeconds.lt (exp.sub iat) then .error .expExceedsMaxLifetime
      else if (exp.sub iat).le (.finite 0) then .error .expInPast
      else .ok ()

/-- `crypto.subtle.sign`, which throws for a key that may not sign. -/
def signBytes (subtle : Subtle ν) (s : Signer ν) (key : CryptoKey) (input : List UInt8) :
    Except Rejection (List UInt8) :=
  if .sign ∈ key.usages then .ok (subtle.hmac s.hash key.secret input) else .error .thrown

/-- `sign(payload)` at a reading of the clock. -/
def sign (subtle : Subtle ν) (s : Signer ν) (payload : PlainObject ν) (now : Quantity) :
    Except Rejection JsString :=
  match s.key with
  | .error e => .error e
  | .ok key =>
    if !isFinite now then .error (.error .invalidClock)
    else
      match checkPayload s payload now with
      | .error code => .error (.error code)
      | .ok () =>
        match signBytes subtle s key (encodeText (signingInput s payload)) with
        | .error e => .error e
        | .ok sig => .ok (signingInput s payload ++ dot :: b64urlEncode sig)

theorem sign_eq_ok {subtle : Subtle ν} {s : Signer ν} {payload : PlainObject ν} {now : Quantity}
    {token : JsString} (h : sign subtle s payload now = .ok token) :
    ∃ key, s.key = .ok key ∧ token = signingInput s payload ++
      dot :: b64urlEncode (subtle.hmac s.hash key.secret (encodeText (signingInput s payload))) := by
  rw [sign] at h
  split at h
  · cases h
  rename_i key hkey
  refine ⟨key, hkey, ?_⟩
  split at h
  · cases h
  split at h
  · cases h
  split at h
  · cases h
  rename_i sig hsig
  rw [signBytes] at hsig
  split at hsig
  · rw [Except.ok.inj hsig]
    exact (Except.ok.inj h).symm
  · cases hsig

end

end Daloy.Jwt
