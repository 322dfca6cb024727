import Daloy.Foundations.Fallible
import Daloy.Jwt.Signer

/-! # The verifier of tokens

`createJwtVerifier` and `verify`, with the caches of keys as a state. The temporal claims are
compared after one rounding: `exp ⊕ skew`, `now ⊕ skew`, `iat ⊖ skew`.

* `checkClaims_iff`: what the claims of a token must say.
* `verify_spec`: the outcome does not depend on what the caches hold.
-/

namespace Daloy.Jwt
set_option autoImplicit false

open Daloy.Unicode Daloy.Json Daloy.Security Daloy.Fallible

section
variable {ν : Type}

/-! ## The verifier -/

abbrev Members (ν : Type) := List (JsString × Value ν)

/-- The hook on revoked tokens: what it answers, `none` if it throws. -/
abbrev RevocationCheck (ν : Type) := Members ν → Members ν → Option Bool

/-- What the verifier closes over, `ResolvedVerifier` without its clock. -/
structure Verifier (ν : Type) where
  algorithms : List JwtAlgorithm
  key : KeySource ν
  issuers : Option (List JsString)
  audiences : Option (List JsString)
  clockSkewSeconds : ℚ
  maxLifetimeSeconds : Option Quantity
  isRevoked : Option (RevocationCheck ν)
  skew_nonneg : 0 ≤ clockSkewSeconds

inductive StringOption
  | one (s : JsString)
  | many (ss : List JsString)

structure JwtVerifierOptions (ν : Type) where
  algorithms : List JwtAlgorithm
  key : KeySource ν
  issuer : Option StringOption
  audience : Option StringOption
  allowAnyAudience : Bool
  production : Bool
  clockSkewSeconds : Option Quantity
  refuseSymmetricWithJwk : Bool
  isRevoked : Option (RevocationCheck ν)
  maxLifetimeSeconds : Option Quantity

def MAX_CLOCK_SKEW_SECONDS : ℚ := 300

def assertAudienceConfigured (opts : JwtVerifierOptions ν) : Except JwtErrorCode Unit :=
  if !opts.production || opts.allowAnyAudience then .ok ()
  else
    match opts.audience with
    | none | some (.many []) | some (.one []) => .error .invalidOptions
    | _ => .ok ()

def normalizeStringSet : Option StringOption → Except JwtErrorCode (Option (List JsString))
  | none => .ok none
  | some value =>
    let arr := match value with
      | .one s => [s]
      | .many ss => ss
    if arr.isEmpty || arr.any (·.isEmpty) then .error .invalidStringSet else .ok (some arr)

def looksLikeJwkSource : KeySource ν → Bool
  | .resolver _ => true
  | .fixed (.jwk _) => true
  | _ => false

/-- The tolerance, `0` if none is given. -/
def checkSkew : Option Quantity → Except JwtErrorCode {skew : ℚ // 0 ≤ skew}
  | none => .ok ⟨0, le_refl 0⟩
  | some (.finite skew) =>
    if h : 0 ≤ skew then
      if MAX_CLOCK_SKEW_SECONDS < skew then .error .invalidClockSkew else .ok ⟨skew, h⟩
    else .error .invalidClockSkew
  | some _ => .error .invalidClockSkew

def checkMaxLifetime : Option Quantity → Except JwtErrorCode Unit
  | none => .ok ()
  | some (.finite x) => if 0 < x ∧ x.den = 1 then .ok () else .error .invalidMaxLifetime
  | some _ => .error .invalidMaxLifetime

def createJwtVerifier (isGuessable : List UInt8 → Bool) (opts : JwtVerifierOptions ν) :
    Except JwtErrorCode (Verifier ν) := do
  assertAudienceConfigured opts
  if opts.algorithms.isEmpty then throw .missingAlgorithms
  if opts.algorithms.any isSymmetric then
    match opts.key with
    | .fixed material => checkSecret isGuessable opts.production material
    | .resolver _ => pure ()
    if opts.refuseSymmetricWithJwk && looksLikeJwkSource opts.key then throw .symWithJwkRefused
  let skew ← checkSkew opts.clockSkewSeconds
  checkMaxLifetime opts.maxLifetimeSeconds
  let issuers ← normalizeStringSet opts.issuer
  let audiences ← normalizeStringSet opts.audience
  return ⟨opts.algorithms, opts.key, issuers, audiences, skew.1, opts.maxLifetimeSeconds,
    opts.isRevoked, skew.2⟩

end

section
variable {ν : Type} [NumberText ν]

/-! ## Reading a token -/

/-- The segments of a token, and what the first two say. -/
structure TokenParts (ν : Type) where
  headerB64 : JsString
  payloadB64 : JsString
  sigB64 : JsString
  header : Members ν
  payload : Members ν
  alg : JwtAlgorithm

/-- The checks on the header: its algorithm is allowed, and it has no `crit`. -/
def checkHeader (algorithms : List JwtAlgorithm) (header : Members ν) :
    Except JwtErrorCode JwtAlgorithm :=
  match header.lookup (js "alg") with
  | some (.str name) =>
    if name = js "none" then .error .algNoneRefused
    else
      match algorithms.find? fun alg => alg.name = name with
      | none => .error .algNotAllowed
      | some alg =>
        if (header.lookup (js "crit")).isSome then .error .unsupportedCrit else .ok alg
  | _ => .error .algNotAllowed

def readToken (algorithms : List JwtAlgorithm) (token : JsString) :
    Except JwtErrorCode (TokenParts ν) :=
  match token.splitOn dot with
  | [headerB64, payloadB64, sigB64] =>
    match parseSegment headerB64, parseSegment payloadB64 with
    | some (.obj header), some (.obj payload) =>
      match checkHeader algorithms header with
      | .error code => .error code
      | .ok alg => .ok ⟨headerB64, payloadB64, sigB64, header, payload, alg⟩
    | _, _ => .error .invalidToken
  | _ => .error .invalidToken

/-- `crypto.subtle.verify`, `none` if it throws. -/
def verifyBytes (subtle : Subtle ν) (alg : JwtAlgorithm) (key : CryptoKey)
    (sig input : List UInt8) : Option Bool :=
  if .verify ∉ key.usages ∨ key.name ≠ (algParams alg).name then none
  else if key.name = .HMAC then
    key.hash.map fun hash => decide (subtle.hmac hash key.secret input = sig)
  else subtle.verifyOther key alg sig input

end

/-! ## The claims -/

section
variable {ν : Type} [JsonDouble ν]

def finiteNumber : Value ν → Option Quantity
  | .num n => if isFinite (JsonDouble.quantity n) then some (JsonDouble.quantity n) else none
  | _ => none

def checkClaim (payload : Members ν) (name : String) (invalid violated : JwtErrorCode)
    (isViolated : Quantity → Bool) : Except JwtErrorCode Unit :=
  match payload.lookup (js name) with
  | none => .ok ()
  | some value =>
    match finiteNumber value with
    | none => .error invalid
    | some x => if isViolated x then .error violated else .ok ()

def assertTemporalClaims (payload : Members ν) (now skew : Quantity) :
    Except JwtErrorCode Unit := do
  if !isFinite skew || skew.lt (.finite 0) then throw .invalidClockSkew
  if !isFinite now then throw .invalidClockSkew
  checkClaim payload "exp" .invalidExp .tokenExpired fun exp => (exp.add skew).le now
  checkClaim payload "nbf" .invalidNbf .tokenNotYetValid fun nbf => (now.add skew).lt nbf
  checkClaim payload "iat" .invalidIat .iatInFuture fun iat => now.lt (iat.sub skew)

/-- `iat`, or the clock where there is none. -/
def issuedAt (payload : Members ν) (now : Quantity) : Quantity :=
  ((payload.lookup (js "iat")).bind finiteNumber).getD now

def checkLifetime (payload : Members ν) (now : Quantity) :
    Option Quantity → Except JwtErrorCode Unit
  | none => .ok ()
  | some maxLifetimeSeconds =>
    match (payload.lookup (js "exp")).bind finiteNumber with
    | none => .error .missingExp
    | some exp =>
      if maxLifetimeSeconds.lt (exp.sub (issuedAt payload now)) then .error .lifetimeExceeded
      else .ok ()

def checkIssuer (payload : Members ν) : Option (List JsString) → Except JwtErrorCode Unit
  | none => .ok ()
  | some issuers =>
    match payload.lookup (js "iss") with
    | some (.str iss) => if iss ∈ issuers then .ok () else .error .invalidIssuer
    | _ => .error .invalidIssuer

/-- `typeof a === "string" && r.audiences.has(a)`. -/
def isAudience (audiences : List JsString) : Value ν → Bool
  | .str a => a ∈ audiences
  | _ => false

def checkAudience (payload : Members ν) : Option (List JsString) → Except JwtErrorCode Unit
  | none => .ok ()
  | some audiences =>
    match payload.lookup (js "aud") with
    | some (.str aud) => if aud ∈ audiences then .ok () else .error .invalidAudience
    | some (.arr aud) => if aud.any (isAudience audiences) then .ok () else .error .invalidAudience
    | _ => .error .invalidAudience

def checkRevoked (header payload : Members ν) :
    Option (RevocationCheck ν) → Except JwtErrorCode Unit
  | none => .ok ()
  | some isRevoked =>
    match isRevoked header payload with
    | none => .error .revocationCheckFailed
    | some true => .error .tokenRevoked
    | some false => .ok ()

def checkClaims (v : Verifier ν) (now : Quantity) (header payload : Members ν) :
    Except JwtErrorCode Unit := do
  assertTemporalClaims payload now (.finite v.clockSkewSeconds)
  checkLifetime payload now v.maxLifetimeSeconds
  checkIssuer payload v.issuers
  checkAudience payload v.audiences
  checkRevoked header payload v.isRevoked

/-! ## Verifying -/

def checkToken (subtle : Subtle ν) (v : Verifier ν) (now : Quantity) (parts : TokenParts ν)
    (key : CryptoKey) : Except JwtErrorCode (Members ν × Members ν) :=
  match b64urlDecode parts.sigB64 with
  | none => .error .invalidToken
  | some sig =>
    match verifyBytes subtle parts.alg key sig
        (encodeText (parts.headerB64 ++ dot :: parts.payloadB64)) with
    | some true =>
      match checkClaims v now parts.header parts.payload with
      | .error code => .error code
      | .ok () => .ok (parts.header, parts.payload)
    | _ => .error .invalidSignature

/-- `verify(token)` at a reading of the clock: the header and the payload. -/
def verify (subtle : Subtle ν) (v : Verifier ν) (now : Quantity) (caches : KeyCaches)
    (token : JsString) : Except Rejection (Members ν × Members ν) × KeyCaches :=
  match readToken v.algorithms token with
  | .error code => (.error (.error code), caches)
  | .ok parts =>
    match resolveKey subtle v.key parts.alg parts.header caches with
    | (.error e, caches) => (.error e, caches)
    | (.ok key, caches) => ((checkToken subtle v now parts key).mapError .error, caches)

/-! ## What the claims must say -/

def ClaimHolds (payload : Members ν) (name : String) (P : Quantity → Prop) : Prop :=
  ∀ value, payload.lookup (js name) = some value → ∃ x, finiteNumber value = some x ∧ P x

def Addressed (payload : Members ν) (audiences : List JsString) : Prop :=
  (∃ aud ∈ audiences, payload.lookup (js "aud") = some (.str aud)) ∨
    ∃ items, payload.lookup (js "aud") = some (.arr items) ∧ ∃ aud ∈ audiences, .str aud ∈ items

/-- What a token must say at a reading of the clock. -/
structure Acceptable (v : Verifier ν) (now : Quantity) (header payload : Members ν) : Prop where
  clock : isFinite now = true
  exp : ClaimHolds payload "exp" fun exp => now.lt (exp.add (.finite v.clockSkewSeconds)) = true
  nbf : ClaimHolds payload "nbf" fun nbf => nbf.le (now.add (.finite v.clockSkewSeconds)) = true
  iat : ClaimHolds payload "iat" fun iat => (iat.sub (.finite v.clockSkewSeconds)).le now = true
  lifetime : ∀ cap, v.maxLifetimeSeconds = some cap →
    ∃ exp, (payload.lookup (js "exp")).bind finiteNumber = some exp ∧
      cap.lt (exp.sub (issuedAt payload now)) = false
  issuer : ∀ issuers, v.issuers = some issuers →
    ∃ iss ∈ issuers, payload.lookup (js "iss") = some (.str iss)
  audience : ∀ audiences, v.audiences = some audiences → Addressed payload audiences
  revoked : ∀ isRevoked, v.isRevoked = some isRevoked → isRevoked header payload = some false

theorem isFinite_finiteNumber {value : Value ν} {x : Quantity} (h : finiteNumber value = some x) :
    isFinite x = true := by
  cases value with
  | num n =>
    rw [finiteNumber] at h
    split at h
    · rename_i hfinite
      rw [← Option.some.inj h]
      exact hfinite
    · cases h
  | _ => cases h

theorem lt_iff_not_le {x y : Quantity} (hx : x ≠ .nan) (hy : y ≠ .nan) :
    x.lt y = true ↔ y.le x = false := by
  have htotal : y.le x = false → x.le y = true := by
    intro h
    cases x with
    | nan => exact absurd rfl hx
    | infinity a =>
      cases y with
      | nan => exact absurd rfl hy
      | infinity b => cases a <;> cases b <;> first | rfl | cases h
      | finite q => cases a <;> first | rfl | cases h
    | finite p =>
      cases y with
      | nan => exact absurd rfl hy
      | infinity b => cases b <;> first | rfl | cases h
      | finite q =>
        simp only [Quantity.le, decide_eq_false_iff_not, not_le] at h
        exact decide_eq_true h.le
  rw [Quantity.lt, Bool.and_eq_true, Bool.not_eq_true']
  exact ⟨And.right, fun h => ⟨htotal h, h⟩⟩

theorem finite_add_ne_nan {x y : Quantity} (hx : isFinite x = true) (hy : isFinite y = true) :
    x.add y ≠ .nan := by
  cases x with
  | finite p =>
    cases y with
    | finite q =>
      rw [Quantity.add, Quantity.rounded_eq]
      split <;> simp
    | _ => cases hy
  | _ => cases hx

theorem ne_nan_of_isFinite {x : Quantity} (h : isFinite x = true) : x ≠ .nan := by
  rintro rfl
  cases h

theorem checkClaim_iff {payload : Members ν} {name : String} {invalid violated : JwtErrorCode}
    {isViolated : Quantity → Bool} :
    checkClaim payload name invalid violated isViolated = .ok () ↔
      ClaimHolds payload name fun x => isViolated x = false := by
  rw [checkClaim, ClaimHolds]
  cases payload.lookup (js name) with
  | none => simp
  | some value =>
    cases hnumber : finiteNumber value with
    | none => simp [hnumber]
    | some x => cases hviolated : isViolated x <;> simp [hnumber, hviolated]

theorem claimHolds_congr {payload : Members ν} {name : String} {P Q : Quantity → Prop}
    (h : ∀ x, isFinite x = true → (P x ↔ Q x)) :
    ClaimHolds payload name P ↔ ClaimHolds payload name Q := by
  rw [ClaimHolds, ClaimHolds]
  refine forall_congr' fun value => imp_congr_right fun _ => exists_congr fun x => ?_
  exact and_congr_right fun hx => h x (isFinite_finiteNumber hx)

theorem assertTemporalClaims_iff {payload : Members ν} {now : Quantity} {skew : ℚ}
    (hskew : 0 ≤ skew) :
    assertTemporalClaims payload now (.finite skew) = .ok () ↔
      isFinite now = true ∧
      (ClaimHolds payload "exp" fun exp => now.lt (exp.add (.finite skew)) = true) ∧
      (ClaimHolds payload "nbf" fun nbf => nbf.le (now.add (.finite skew)) = true) ∧
      ClaimHolds payload "iat" fun iat => (iat.sub (.finite skew)).le now = true := by
  have hguard : (!isFinite (.finite skew) || Quantity.lt (.finite skew) (.finite 0)) = false := by
    simp [isFinite, Quantity.lt, Quantity.le, hskew]
  rw [assertTemporalClaims, hguard]
  cases hnow : isFinite now with
  | false =>
    simp only [Bool.false_eq_true, false_and, iff_false]
    intro h
    cases h
  | true =>
    have hfinite := ne_nan_of_isFinite hnow
    have hexp : ∀ x, isFinite x = true → ((x.add (.finite skew)).le now = false ↔
        now.lt (x.add (.finite skew)) = true) := fun x hx =>
      (lt_iff_not_le hfinite (finite_add_ne_nan hx rfl)).symm
    have hnbf : ∀ x, isFinite x = true → ((now.add (.finite skew)).lt x = false ↔
        x.le (now.add (.finite skew)) = true) := by
      intro x hx
      rw [← Bool.not_eq_true, lt_iff_not_le (finite_add_ne_nan hnow rfl) (ne_nan_of_isFinite hx),
        Bool.not_eq_false]
    have hiat : ∀ x, isFinite x = true → (now.lt (x.sub (.finite skew)) = false ↔
        (x.sub (.finite skew)).le now = true) := by
      intro x hx
      have hnumber : x.sub (.finite skew) ≠ .nan := finite_add_ne_nan hx (show isFinite (.finite (-skew)) = true from rfl)
      rw [← Bool.not_eq_true, lt_iff_not_le hfinite hnumber, Bool.not_eq_false]
    simp only [Bool.not_true, Bool.false_eq_true, if_false, then_eq_ok, checkClaim_iff, true_and]
    rw [claimHolds_congr hexp, claimHolds_congr hnbf, claimHolds_congr hiat]

theorem checkLifetime_iff {payload : Members ν} {now : Quantity} {cap : Option Quantity} :
    checkLifetime payload now cap = .ok () ↔ ∀ c, cap = some c →
      ∃ exp, (payload.lookup (js "exp")).bind finiteNumber = some exp ∧
        c.lt (exp.sub (issuedAt payload now)) = false := by
  cases cap with
  | none => simp [checkLifetime]
  | some c =>
    rw [checkLifetime]
    cases (payload.lookup (js "exp")).bind finiteNumber with
    | none => simp
    | some exp => simp

omit [JsonDouble ν] in
theorem checkIssuer_iff {payload : Members ν} {issuers : Option (List JsString)} :
    checkIssuer payload issuers = .ok () ↔ ∀ names, issuers = some names →
      ∃ iss ∈ names, payload.lookup (js "iss") = some (.str iss) := by
  cases issuers with
  | none => simp [checkIssuer]
  | some names =>
    rw [checkIssuer]
    cases payload.lookup (js "iss") with
    | none => simp
    | some value => cases value <;> simp

omit [JsonDouble ν] in
theorem checkAudience_iff {payload : Members ν} {audiences : Option (List JsString)} :
    checkAudience payload audiences = .ok () ↔ ∀ names, audiences = some names →
      Addressed payload names := by
  cases audiences with
  | none => simp [checkAudience]
  | some names =>
    have hany : ∀ items : List (Value ν), items.any (isAudience names) = true ↔
        ∃ aud ∈ names, Value.str aud ∈ items := by
      intro items
      rw [List.any_eq_true]
      constructor
      · rintro ⟨item, hitem, haudience⟩
        cases item with
        | str aud => exact ⟨aud, of_decide_eq_true haudience, hitem⟩
        | _ => cases haudience
      · rintro ⟨aud, haud, hitem⟩
        exact ⟨_, hitem, decide_eq_true haud⟩
    rw [checkAudience]
    simp only [Option.some.injEq, forall_eq', Addressed]
    cases payload.lookup (js "aud") with
    | none => simp
    | some value =>
      cases value with
      | arr items =>
        simp only [reduceCtorEq, Option.some.injEq, and_false, exists_false, false_or,
          Value.arr.injEq, exists_eq_left', ← hany]
        cases items.any (isAudience names) <;> simp
      | _ => simp

omit [JsonDouble ν] in
theorem checkRevoked_iff {header payload : Members ν} {isRevoked : Option (RevocationCheck ν)} :
    checkRevoked header payload isRevoked = .ok () ↔
      ∀ check, isRevoked = some check → check header payload = some false := by
  cases isRevoked with
  | none => simp [checkRevoked]
  | some check =>
    rw [checkRevoked]
    simp only [Option.some.injEq, forall_eq']
    obtain h | h | h : check header payload = none ∨ check header payload = some true ∨
        check header payload = some false := by
      cases check header payload with
      | none => exact .inl rfl
      | some b => cases b <;> simp
    all_goals simp [h]

theorem checkClaims_iff {v : Verifier ν} {now : Quantity} {header payload : Members ν} :
    checkClaims v now header payload = .ok () ↔ Acceptable v now header payload := by
  rw [checkClaims, then_eq_ok, then_eq_ok, then_eq_ok, then_eq_ok,
    assertTemporalClaims_iff v.skew_nonneg,
    checkLifetime_iff, checkIssuer_iff, checkAudience_iff, checkRevoked_iff]
  constructor
  · rintro ⟨⟨hclock, hexp, hnbf, hiat⟩, hlifetime, hissuer, haudience, hrevoked⟩
    exact ⟨hclock, hexp, hnbf, hiat, hlifetime, hissuer, haudience, hrevoked⟩
  · intro h
    exact ⟨⟨h.clock, h.exp, h.nbf, h.iat⟩, h.lifetime, h.issuer, h.audience, h.revoked⟩

/-! ## The caches do not matter -/

def verdict (subtle : Subtle ν) (v : Verifier ν) (now : Quantity) (token : JsString) :
    Except Rejection (Members ν × Members ν) :=
  match readToken v.algorithms token with
  | .error code => .error (.error code)
  | .ok parts =>
    match keyFor subtle v.key parts.alg parts.header with
    | .error e => .error e
    | .ok key => (checkToken subtle v now parts key).mapError .error

theorem verify_spec {subtle : Subtle ν} {v : Verifier ν} {caches : KeyCaches}
    (h : Sound subtle v.key caches) (now : Quantity) (token : JsString) :
    (verify subtle v now caches token).1 = verdict subtle v now token ∧
      Sound subtle v.key (verify subtle v now caches token).2 := by
  rw [verify, verdict]
  cases (readToken v.algorithms token : Except JwtErrorCode (TokenParts ν)) with
  | error code => exact ⟨rfl, h⟩
  | ok parts =>
    obtain ⟨hkey, hsound⟩ := resolveKey_spec h parts.alg parts.header
    dsimp only
    generalize resolveKey subtle v.key parts.alg parts.header caches = resolved at hkey hsound ⊢
    obtain ⟨key, caches'⟩ := resolved
    rw [← hkey]
    cases key with
    | error e => exact ⟨rfl, hsound⟩
    | ok key => exact ⟨rfl, hsound⟩

end

end Daloy.Jwt
