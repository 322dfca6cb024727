import Daloy.Foundations.JsMap
import Daloy.Jwt.PlainData

/-! # Keys

Algorithms, key material and its import, and the two maps in which a verifier keeps what it has
imported. WebCrypto is a parameter where it reads keys of the web and checks signatures that are no
message authentication codes.

* `importKey_spec`: an imported key is of the family, hash and curve of the algorithm.
* `cacheId_inj`: two keys of the web with one id are imported alike.
* `resolveKey_spec`: a key that was kept is the key that would be imported.
* `Reachable.sound`: so it is after any calls, in any interleaving.
-/

namespace Daloy.Jwt
set_option autoImplicit false

open Daloy.Unicode Daloy.Json Daloy.Security

/-! ## Algorithms -/

inductive JwtAlgorithm
  | HS256 | HS384 | HS512
  | RS256 | RS384 | RS512
  | PS256 | PS384 | PS512
  | ES256 | ES384 | ES512
  | EdDSA
  deriving DecidableEq

def JwtAlgorithm.name : JwtAlgorithm → JsString
  | HS256 => js "HS256" | HS384 => js "HS384" | HS512 => js "HS512"
  | RS256 => js "RS256" | RS384 => js "RS384" | RS512 => js "RS512"
  | PS256 => js "PS256" | PS384 => js "PS384" | PS512 => js "PS512"
  | ES256 => js "ES256" | ES384 => js "ES384" | ES512 => js "ES512"
  | EdDSA => js "EdDSA"

def ALL_ALGS : List JwtAlgorithm :=
  [.HS256, .HS384, .HS512, .RS256, .RS384, .RS512, .PS256, .PS384, .PS512, .ES256, .ES384, .ES512,
    .EdDSA]

theorem JwtAlgorithm.name_injective {a b : JwtAlgorithm} (h : a.name = b.name) : a = b := by
  have hmem : ∀ c : JwtAlgorithm, c ∈ ALL_ALGS := by
    intro c
    cases c <;> decide
  have hall : ∀ c ∈ ALL_ALGS, ∀ d ∈ ALL_ALGS, c.name = d.name → c = d := by decide +kernel
  exact hall a (hmem a) b (hmem b) h

def isSymmetric : JwtAlgorithm → Bool
  | .HS256 | .HS384 | .HS512 => true
  | _ => false

inductive KeyName
  | HMAC
  | RSASSA_PKCS1_v1_5
  | RSA_PSS
  | ECDSA
  | Ed25519
  deriving DecidableEq

inductive HashName
  | SHA256 | SHA384 | SHA512
  deriving DecidableEq

inductive CurveName
  | P256 | P384 | P521
  deriving DecidableEq

structure AlgParams where
  name : KeyName
  hash : Option HashName
  namedCurve : Option CurveName
  saltLength : Option ℕ

def algParams : JwtAlgorithm → AlgParams
  | .HS256 => ⟨.HMAC, some .SHA256, none, none⟩
  | .HS384 => ⟨.HMAC, some .SHA384, none, none⟩
  | .HS512 => ⟨.HMAC, some .SHA512, none, none⟩
  | .RS256 => ⟨.RSASSA_PKCS1_v1_5, some .SHA256, none, none⟩
  | .RS384 => ⟨.RSASSA_PKCS1_v1_5, some .SHA384, none, none⟩
  | .RS512 => ⟨.RSASSA_PKCS1_v1_5, some .SHA512, none, none⟩
  | .PS256 => ⟨.RSA_PSS, some .SHA256, none, some 32⟩
  | .PS384 => ⟨.RSA_PSS, some .SHA384, none, some 48⟩
  | .PS512 => ⟨.RSA_PSS, some .SHA512, none, some 64⟩
  | .ES256 => ⟨.ECDSA, some .SHA256, some .P256, none⟩
  | .ES384 => ⟨.ECDSA, some .SHA384, some .P384, none⟩
  | .ES512 => ⟨.ECDSA, some .SHA512, some .P521, none⟩
  | .EdDSA => ⟨.Ed25519, none, none, none⟩

theorem isSymmetric_iff {alg : JwtAlgorithm} :
    isSymmetric alg = true ↔ (algParams alg).name = .HMAC := by
  cases alg <;> decide

/-! ## Errors -/

inductive JwtErrorCode
  | invalidOptions
  | invalidKey
  | weakHsSecret
  | keyAlgorithmMismatch
  | weakRsaKey
  | missingMaxLifetime
  | ackNoExpRefusedInProduction
  | unsupportedCrit
  | invalidClock
  | missingExp
  | invalidExp
  | expExceedsMaxLifetime
  | expInPast
  | missingAlgorithms
  | symWithJwkRefused
  | invalidClockSkew
  | invalidMaxLifetime
  | invalidStringSet
  | invalidToken
  | algNoneRefused
  | algNotAllowed
  | invalidSignature
  | tokenExpired
  | invalidNbf
  | tokenNotYetValid
  | invalidIat
  | iatInFuture
  | lifetimeExceeded
  | invalidIssuer
  | invalidAudience
  | revocationCheckFailed
  | tokenRevoked
  deriving DecidableEq

/-- Why a promise is rejected: a `JwtError`, or what a resolver or WebCrypto throws. -/
inductive Rejection
  | error (code : JwtErrorCode)
  | thrown
  deriving DecidableEq

/-! ## Keys of WebCrypto -/

inductive KeyUsage
  | sign
  | verify
  deriving DecidableEq

/-- A `CryptoKey` and the secret behind it. -/
structure CryptoKey where
  name : KeyName
  hash : Option HashName
  namedCurve : Option CurveName
  length : Option Quantity
  modulusLength : Option Quantity
  usages : List KeyUsage
  secret : List UInt8
  deriving DecidableEq

/-- Key material, by what the checks on its type find. -/
inductive JwtKeyMaterial (ν : Type)
  | cryptoKey (key : CryptoKey)
  | bytes (secret : List UInt8)
  | jwk (record : PlainObject ν)
  | unsupported

section
variable {ν : Type}

/-- `record[name]`, if it is there and not `undefined`. -/
def PlainObject.member (record : PlainObject ν) (name : JsString) : Option (Data ν) :=
  match record.members.lookup name with
  | none | some .undefined => none
  | some data => some data

/-- `SubtleCrypto`. It reads the members of a key of the web by their names. -/
structure Subtle (ν : Type) where
  importJwk : (JsString → Option (Data ν)) → KeyName → Option HashName → Option CurveName →
    KeyUsage → Option CryptoKey
  hmac : HashName → List UInt8 → List UInt8 → List UInt8
  verifyOther : CryptoKey → JwtAlgorithm → List UInt8 → List UInt8 → Option Bool

def MIN_HS_KEY_BYTES : ℕ := 32

def MIN_RSA_KEY_BITS : ℕ := 2048

/-- `importKey("raw", secret, { name: "HMAC", hash }, false, [usage])`. -/
def importRaw (hash : Option HashName) (secret : List UInt8) (usage : KeyUsage) : CryptoKey where
  name := .HMAC
  hash := hash
  namedCurve := none
  length := some (.finite (8 * secret.length))
  modulusLength := none
  usages := [usage]
  secret := secret

def isFinite : Quantity → Bool
  | .finite _ => true
  | _ => false

def assertRsaModulusFloor (alg : JwtAlgorithm) (key : CryptoKey) : Except Rejection Unit :=
  if (algParams alg).name ≠ .RSASSA_PKCS1_v1_5 ∧ (algParams alg).name ≠ .RSA_PSS then .ok ()
  else
    match key.modulusLength with
    | some (.finite bits) =>
      if bits < MIN_RSA_KEY_BITS then .error (.error .weakRsaKey) else .ok ()
    | _ => .ok ()

def isLongSecret : Option Quantity → Bool
  | some (.finite bits) => MIN_HS_KEY_BYTES * 8 ≤ bits
  | _ => false

def assertKeyPolicy (alg : JwtAlgorithm) (key : CryptoKey) : Except Rejection Unit :=
  if key.name ≠ (algParams alg).name ∨
      ((algParams alg).hash ≠ none ∧ (algParams alg).name ≠ .ECDSA ∧
        key.hash ≠ (algParams alg).hash) ∨
      ((algParams alg).namedCurve ≠ none ∧ key.namedCurve ≠ (algParams alg).namedCurve) then
    .error (.error .keyAlgorithmMismatch)
  else if (algParams alg).name = .HMAC ∧ isLongSecret key.length = false then
    .error (.error .weakHsSecret)
  else assertRsaModulusFloor alg key

def importKey (subtle : Subtle ν) (alg : JwtAlgorithm) (usage : KeyUsage) :
    JwtKeyMaterial ν → Except Rejection CryptoKey
  | .cryptoKey key => do
    assertKeyPolicy alg key
    return key
  | .bytes secret =>
    if isSymmetric alg = false then .error (.error .invalidKey)
    else if secret.length < MIN_HS_KEY_BYTES then .error (.error .weakHsSecret)
    else .ok (importRaw (algParams alg).hash secret usage)
  | .jwk record =>
    let hash := if (algParams alg).name = .ECDSA then none else (algParams alg).hash
    match subtle.importJwk record.member (algParams alg).name hash (algParams alg).namedCurve
        usage with
    | none => .error .thrown
    | some imported => do
      assertKeyPolicy alg imported
      return imported
  | .unsupported => .error (.error .invalidKey)

theorem assertKeyPolicy_spec {alg : JwtAlgorithm} {key : CryptoKey}
    (h : assertKeyPolicy alg key = .ok ()) :
    key.name = (algParams alg).name ∧
      (isSymmetric alg = true → key.hash = (algParams alg).hash) := by
  rw [assertKeyPolicy] at h
  split at h
  · cases h
  · rename_i hmatch
    simp only [not_or, not_and, not_not] at hmatch
    obtain ⟨hname, hhash, -⟩ := hmatch
    refine ⟨hname, fun hsymmetric => ?_⟩
    have hhmac := isSymmetric_iff.mp hsymmetric
    refine hhash ?_ (by rw [hhmac]; decide)
    cases alg <;> first | decide | cases hsymmetric

theorem importKey_spec {subtle : Subtle ν} {alg : JwtAlgorithm} {usage : KeyUsage}
    {material : JwtKeyMaterial ν} {key : CryptoKey}
    (h : importKey subtle alg usage material = .ok key) :
    key.name = (algParams alg).name ∧
      (isSymmetric alg = true → key.hash = (algParams alg).hash) := by
  have hguard : ∀ other : CryptoKey,
      (assertKeyPolicy alg other >>= fun _ => pure other) = .ok key →
      assertKeyPolicy alg other = .ok () ∧ other = key := by
    intro other hok
    cases hpolicy : assertKeyPolicy alg other with
    | error e =>
      rw [hpolicy] at hok
      cases hok
    | ok u =>
      rw [hpolicy] at hok
      exact ⟨rfl, Except.ok.inj hok⟩
  cases material with
  | cryptoKey other =>
    obtain ⟨hpolicy, rfl⟩ := hguard other h
    exact assertKeyPolicy_spec hpolicy
  | bytes secret =>
    rw [importKey] at h
    split at h
    · cases h
    · rename_i hsymmetric
      split at h
      · cases h
      · rw [Bool.not_eq_false] at hsymmetric
        rw [← Except.ok.inj h, isSymmetric_iff.mp hsymmetric]
        exact ⟨rfl, fun _ => rfl⟩
  | jwk record =>
    rw [importKey] at h
    split at h
    · cases h
    · obtain ⟨hpolicy, rfl⟩ := hguard _ h
      exact assertKeyPolicy_spec hpolicy
  | unsupported => cases h

/-! ## The id of a key of the web -/

def idValue : Data ν → Option (Value ν)
  | .str s => some (.str s)
  | .bool b => some (.bool b)
  | .arr items => do
    let texts ← items.mapM fun item => match item with
      | .str s => some s
      | _ => none
    return .arr (texts.map .str)
  | _ => none

/-- `[name, value]` for the members that are not `undefined`, `none` if one has no place. -/
def idEntries (record : PlainObject ν) : List JsString → Option (List (JsString × Value ν))
  | [] => some []
  | name :: names =>
    match record.member name with
    | none => idEntries record names
    | some data => do
      let value ← idValue data
      let entries ← idEntries record names
      return (name, value) :: entries

/-- The order of `sort()`. -/
def nameLe (a b : JsString) : Bool := a.map UInt16.toNat ≤ b.map UInt16.toNat

def MAX_JWK_CACHE_ID_LENGTH : ℕ := 16384

def idOf (alg : JwtAlgorithm) (entries : List (JsString × Value ν)) : Value ν :=
  .arr [.str alg.name, .arr (entries.map fun entry => .arr [.str entry.1, entry.2])]

def jwkMaterialCacheId [NumberText ν] (alg : JwtAlgorithm) (record : PlainObject ν) :
    Option JsString := do
  let entries ← idEntries record ((record.members.map Prod.fst).mergeSort nameLe)
  let id := stringify (idOf alg entries)
  if id.length > MAX_JWK_CACHE_ID_LENGTH then none else some id

theorem wellFormedItems_iff (items : List (Value ν)) :
    WellFormedItems items ↔ ∀ item ∈ items, item.WellFormed := by
  induction items with
  | nil => simp [WellFormedItems]
  | cons item rest ih => rw [WellFormedItems, ih, List.forall_mem_cons]

theorem texts_of_items {items : List (Data ν)} {texts : List JsString}
    (h : (items.mapM fun item => match item with
      | .str s => some s
      | _ => none) = some texts) : items = texts.map .str := by
  induction items generalizing texts with
  | nil =>
    cases h
    rfl
  | cons item rest ih =>
    rw [List.mapM_cons] at h
    cases item with
    | str s =>
      simp only [Option.bind_eq_bind, Option.bind_some] at h
      obtain ⟨others, hothers, htexts⟩ := Option.bind_eq_some_iff.mp h
      rw [← Option.some.inj htexts, List.map_cons, ← ih hothers]
    | _ => cases h

theorem idValue_spec {data : Data ν} {value : Value ν} (h : idValue data = some value) :
    value.WellFormed ∧ ∀ other, idValue other = some value → other = data := by
  cases data with
  | str s =>
    cases h
    refine ⟨trivial, fun other hother => ?_⟩
    cases other with
    | str t =>
      cases hother
      rfl
    | arr items =>
      rw [idValue] at hother
      obtain ⟨texts, -, htexts⟩ := Option.bind_eq_some_iff.mp hother
      cases htexts
    | _ => cases hother
  | bool b =>
    cases h
    refine ⟨trivial, fun other hother => ?_⟩
    cases other with
    | bool c =>
      cases hother
      rfl
    | arr items =>
      rw [idValue] at hother
      obtain ⟨texts, -, htexts⟩ := Option.bind_eq_some_iff.mp hother
      cases htexts
    | _ => cases hother
  | arr items =>
    rw [idValue] at h
    obtain ⟨texts, htexts, hvalue⟩ := Option.bind_eq_some_iff.mp h
    cases hvalue
    refine ⟨?_, fun other hother => ?_⟩
    · rw [Value.WellFormed, wellFormedItems_iff]
      intro item hitem
      obtain ⟨text, -, rfl⟩ := List.mem_map.mp hitem
      trivial
    · cases other with
      | arr others =>
        rw [idValue] at hother
        obtain ⟨texts', htexts', hvalue'⟩ := Option.bind_eq_some_iff.mp hother
        have hmap := Value.arr.inj (Option.some.inj hvalue')
        have hinj : Function.Injective (Value.str (ν := ν)) := fun a b hab => Value.str.inj hab
        have heq : texts' = texts := List.map_injective_iff.mpr hinj hmap
        rw [texts_of_items htexts, texts_of_items htexts', heq]
      | _ => cases hother
  | _ => cases h

theorem wellFormed_idEntries {record : PlainObject ν} : ∀ {names : List JsString}
    {entries : List (JsString × Value ν)}, idEntries record names = some entries →
    ∀ entry ∈ entries, entry.2.WellFormed
  | [], _, h => by
    cases h
    simp
  | name :: names, entries, h => by
    rw [idEntries] at h
    cases hmember : record.member name with
    | none =>
      rw [hmember] at h
      exact wellFormed_idEntries h
    | some data =>
      rw [hmember] at h
      obtain ⟨value, hvalue, h⟩ := Option.bind_eq_some_iff.mp h
      obtain ⟨rest, hrest, h⟩ := Option.bind_eq_some_iff.mp h
      cases h
      rw [List.forall_mem_cons]
      exact ⟨(idValue_spec hvalue).1, wellFormed_idEntries hrest⟩

theorem lookup_idEntries {record : PlainObject ν} (k : JsString) : ∀ {names : List JsString}
    {entries : List (JsString × Value ν)}, idEntries record names = some entries →
    (entries.lookup k = none → k ∈ names → record.member k = none) ∧
      ∀ value, entries.lookup k = some value →
        ∃ data, record.member k = some data ∧ idValue data = some value
  | [], _, h => by
    cases h
    simp
  | name :: names, entries, h => by
    rw [idEntries] at h
    cases hmember : record.member name with
    | none =>
      rw [hmember] at h
      obtain ⟨hnone, hsome⟩ := lookup_idEntries k h
      refine ⟨fun hlookup hk => ?_, hsome⟩
      obtain rfl | hk := List.mem_cons.mp hk
      · exact hmember
      · exact hnone hlookup hk
    | some data =>
      rw [hmember] at h
      obtain ⟨value, hvalue, h⟩ := Option.bind_eq_some_iff.mp h
      obtain ⟨rest, hrest, h⟩ := Option.bind_eq_some_iff.mp h
      cases h
      obtain ⟨hnone, hsome⟩ := lookup_idEntries k hrest
      rw [List.lookup_cons]
      by_cases hk : k = name
      · subst hk
        simp only [beq_self_eq_true, Option.some.injEq, reduceCtorEq, false_implies, true_and]
        rintro v rfl
        exact ⟨data, hmember, hvalue⟩
      · have hbeq : (k == name) = false := by simpa using hk
        rw [hbeq]
        exact ⟨fun hlookup hmem => hnone hlookup ((List.mem_cons.mp hmem).resolve_left hk), hsome⟩

theorem member_eq_none {record : PlainObject ν} {k : JsString}
    (h : k ∉ record.members.map Prod.fst) : record.member k = none := by
  rw [PlainObject.member, lookup_absent h]

theorem member_of_idEntries {record : PlainObject ν} {entries : List (JsString × Value ν)}
    (h : idEntries record ((record.members.map Prod.fst).mergeSort nameLe) = some entries)
    (k : JsString) :
    (entries.lookup k = none → record.member k = none) ∧
      ∀ value, entries.lookup k = some value →
        ∃ data, record.member k = some data ∧ idValue data = some value := by
  obtain ⟨hnone, hsome⟩ := lookup_idEntries k h
  refine ⟨fun hlookup => ?_, hsome⟩
  by_cases hmem : k ∈ record.members.map Prod.fst
  · exact hnone hlookup (List.mem_mergeSort.mpr hmem)
  · exact member_eq_none hmem

theorem idOf_inj {alg alg' : JwtAlgorithm} {entries entries' : List (JsString × Value ν)}
    (h : idOf alg entries = idOf alg' entries') : alg = alg' ∧ entries = entries' := by
  rw [idOf, idOf, Value.arr.injEq, List.cons.injEq, List.cons.injEq, Value.str.injEq,
    Value.arr.injEq] at h
  obtain ⟨hname, hentries, -⟩ := h
  refine ⟨JwtAlgorithm.name_injective hname, List.map_injective_iff.mpr ?_ hentries⟩
  rintro ⟨k, v⟩ ⟨l, w⟩ hpair
  simp only [Value.arr.injEq, List.cons.injEq, Value.str.injEq, and_true] at hpair
  rw [hpair.1, hpair.2]

theorem wellFormed_idOf (alg : JwtAlgorithm) {entries : List (JsString × Value ν)}
    (h : ∀ entry ∈ entries, entry.2.WellFormed) : (idOf alg entries).WellFormed := by
  rw [idOf, Value.WellFormed, wellFormedItems_iff]
  intro item hitem
  rw [List.mem_cons, List.mem_singleton] at hitem
  obtain rfl | rfl := hitem
  · trivial
  · rw [Value.WellFormed, wellFormedItems_iff]
    intro pair hpair
    obtain ⟨entry, hentry, rfl⟩ := List.mem_map.mp hpair
    rw [Value.WellFormed, wellFormedItems_iff]
    intro item hitem
    rw [List.mem_cons, List.mem_singleton] at hitem
    obtain rfl | rfl := hitem
    · trivial
    · exact h entry hentry

theorem cacheId_inj [NumberText ν] {alg alg' : JwtAlgorithm} {record record' : PlainObject ν}
    {id : JsString} (h : jwkMaterialCacheId alg record = some id)
    (h' : jwkMaterialCacheId alg' record' = some id) :
    alg = alg' ∧ record.member = record'.member := by
  obtain ⟨entries, hentries, hid⟩ := Option.bind_eq_some_iff.mp h
  obtain ⟨entries', hentries', hid'⟩ := Option.bind_eq_some_iff.mp h'
  have htext : stringify (idOf alg entries) = id := by
    dsimp only at hid
    split at hid
    · cases hid
    · exact Option.some.inj hid
  have htext' : stringify (idOf alg' entries') = id := by
    dsimp only at hid'
    split at hid'
    · cases hid'
    · exact Option.some.inj hid'
  obtain ⟨halg, rfl⟩ := idOf_inj (stringify_injective
    (wellFormed_idOf alg (wellFormed_idEntries hentries))
    (wellFormed_idOf alg' (wellFormed_idEntries hentries')) (htext.trans htext'.symm))
  refine ⟨halg, funext fun k => ?_⟩
  obtain ⟨hnone, hsome⟩ := member_of_idEntries hentries k
  obtain ⟨hnone', hsome'⟩ := member_of_idEntries hentries' k
  cases hlookup : entries.lookup k with
  | none => rw [hnone hlookup, hnone' hlookup]
  | some value =>
    obtain ⟨data, hdata, hvalue⟩ := hsome value hlookup
    obtain ⟨data', hdata', hvalue'⟩ := hsome' value hlookup
    rw [hdata, hdata', (idValue_spec hvalue).2 data' hvalue']

/-! ## Resolving a key -/

/-- Where a verifier finds its key: fixed material, or a resolver that gets the header. -/
inductive KeySource (ν : Type)
  | fixed (material : JwtKeyMaterial ν)
  | resolver (resolve : List (JsString × Value ν) → Option (JwtKeyMaterial ν))

/-- `keyCache` and `jwkMaterialCache`. -/
structure KeyCaches where
  keyCache : JsMap JwtAlgorithm CryptoKey
  jwkMaterialCache : JsMap JsString CryptoKey

def MAX_JWK_MATERIAL_CACHE_ENTRIES : ℕ := 64

/-- Under what a key is kept. -/
inductive CacheSlot
  | byAlg (alg : JwtAlgorithm)
  | byJwk (id : JsString)

variable [NumberText ν]

def slotOf (source : KeySource ν) (alg : JwtAlgorithm) (material : JwtKeyMaterial ν) :
    Option CacheSlot :=
  match source, material with
  | .fixed _, _ => some (.byAlg alg)
  | .resolver _, .jwk record => (jwkMaterialCacheId alg record).map .byJwk
  | .resolver _, _ => none

/-- The material for a header, `none` if the resolver throws. -/
def KeySource.material (source : KeySource ν) (header : List (JsString × Value ν)) :
    Option (JwtKeyMaterial ν) :=
  match source with
  | .fixed material => some material
  | .resolver resolve => resolve header

def lookupKey (caches : KeyCaches) : Option CacheSlot → Option CryptoKey × KeyCaches
  | none => (none, caches)
  | some (.byAlg alg) => (caches.keyCache.get? alg, caches)
  | some (.byJwk id) =>
    match caches.jwkMaterialCache.get? id with
    | none => (none, caches)
    | some key =>
      (some key, { caches with jwkMaterialCache := (caches.jwkMaterialCache.delete id).set id key })

def storeKey (caches : KeyCaches) (key : CryptoKey) : Option CacheSlot → KeyCaches
  | none => caches
  | some (.byAlg alg) => { caches with keyCache := caches.keyCache.set alg key }
  | some (.byJwk id) =>
    let grown := caches.jwkMaterialCache.set id key
    if grown.size > MAX_JWK_MATERIAL_CACHE_ENTRIES then
      match grown.entries with
      | [] => { caches with jwkMaterialCache := grown }
      | oldest :: _ => { caches with jwkMaterialCache := grown.delete oldest.1 }
    else { caches with jwkMaterialCache := grown }

def keyFor (subtle : Subtle ν) (source : KeySource ν) (alg : JwtAlgorithm)
    (header : List (JsString × Value ν)) : Except Rejection CryptoKey :=
  match source.material header with
  | none => .error .thrown
  | some material => importKey subtle alg .verify material

/-- `resolveKey(header)` behind its check of the algorithm. -/
def resolveKey (subtle : Subtle ν) (source : KeySource ν) (alg : JwtAlgorithm)
    (header : List (JsString × Value ν)) (caches : KeyCaches) :
    Except Rejection CryptoKey × KeyCaches :=
  match source.material header with
  | none => (.error .thrown, caches)
  | some material =>
    match lookupKey caches (slotOf source alg material) with
    | (some key, caches) => (.ok key, caches)
    | (none, caches) =>
      match importKey subtle alg .verify material with
      | .error e => (.error e, caches)
      | .ok imported => (.ok imported, storeKey caches imported (slotOf source alg material))

/-! ## What is kept -/

def Fits (subtle : Subtle ν) (source : KeySource ν) (slot : CacheSlot) (key : CryptoKey) : Prop :=
  ∀ alg header material, source.material header = some material →
    slotOf source alg material = some slot → importKey subtle alg .verify material = .ok key

structure Sound (subtle : Subtle ν) (source : KeySource ν) (caches : KeyCaches) : Prop where
  algs : ∀ alg key, caches.keyCache.get? alg = some key → Fits subtle source (.byAlg alg) key
  jwks : ∀ id key, caches.jwkMaterialCache.get? id = some key → Fits subtle source (.byJwk id) key

theorem sound_empty (subtle : Subtle ν) (source : KeySource ν) :
    Sound subtle source ⟨∅, ∅⟩ := by
  constructor
  · intro alg key h
    cases h
  · intro id key h
    cases h

theorem fits_imported {subtle : Subtle ν} {source : KeySource ν} {alg : JwtAlgorithm}
    {header : List (JsString × Value ν)} {material : JwtKeyMaterial ν} {slot : CacheSlot}
    {key : CryptoKey} (hmaterial : source.material header = some material)
    (hslot : slotOf source alg material = some slot)
    (himport : importKey subtle alg .verify material = .ok key) : Fits subtle source slot key := by
  intro alg' header' material' hmaterial' hslot'
  cases source with
  | fixed m =>
    cases hmaterial
    cases hmaterial'
    cases hslot
    cases hslot'
    exact himport
  | resolver resolve =>
    cases material with
    | jwk record =>
      cases material' with
      | jwk record' =>
        obtain ⟨id, hid, rfl⟩ := Option.map_eq_some_iff.mp hslot
        obtain ⟨id', hid', heq⟩ := Option.map_eq_some_iff.mp hslot'
        cases heq
        obtain ⟨rfl, hmember⟩ := cacheId_inj hid hid'
        rw [importKey] at himport ⊢
        rw [← hmember]
        exact himport
      | _ => cases hslot'
    | _ => cases hslot

theorem Sound.lookup {subtle : Subtle ν} {source : KeySource ν} {caches : KeyCaches}
    (h : Sound subtle source caches) (slot : Option CacheSlot) :
    Sound subtle source (lookupKey caches slot).2 ∧
      ∀ key, (lookupKey caches slot).1 = some key →
        ∃ s, slot = some s ∧ Fits subtle source s key := by
  cases slot with
  | none => exact ⟨h, fun key hkey => by cases hkey⟩
  | some slot =>
    cases slot with
    | byAlg alg => exact ⟨h, fun key hkey => ⟨_, rfl, h.algs alg key hkey⟩⟩
    | byJwk id =>
      rw [lookupKey]
      cases hget : caches.jwkMaterialCache.get? id with
      | none => exact ⟨h, fun key hkey => by cases hkey⟩
      | some found =>
        refine ⟨⟨h.algs, fun id' key hkey => ?_⟩, fun key hkey => ?_⟩
        · rw [JsMap.get?_set, JsMap.get?_delete] at hkey
          split at hkey
          · rename_i heq
            cases hkey
            rw [heq]
            exact h.jwks id _ hget
          · exact h.jwks id' key hkey
        · cases hkey
          exact ⟨_, rfl, h.jwks id _ hget⟩

theorem Sound.store {subtle : Subtle ν} {source : KeySource ν} {caches : KeyCaches}
    (h : Sound subtle source caches) {key : CryptoKey} {slot : Option CacheSlot}
    (hfits : ∀ s, slot = some s → Fits subtle source s key) :
    Sound subtle source (storeKey caches key slot) := by
  cases slot with
  | none => exact h
  | some slot =>
    cases slot with
    | byAlg alg =>
      refine ⟨fun alg' key' hget => ?_, h.jwks⟩
      rw [storeKey, JsMap.get?_set] at hget
      split at hget
      · rename_i heq
        cases hget
        rw [heq]
        exact hfits _ rfl
      · exact h.algs alg' key' hget
    | byJwk id =>
      have hgrown : ∀ id' key', (caches.jwkMaterialCache.set id key).get? id' = some key' →
          Fits subtle source (.byJwk id') key' := by
        intro id' key' hget
        rw [JsMap.get?_set] at hget
        split at hget
        · rename_i heq
          cases hget
          rw [heq]
          exact hfits _ rfl
        · exact h.jwks id' key' hget
      rw [storeKey]
      split
      · split
        · exact ⟨h.algs, hgrown⟩
        · refine ⟨h.algs, fun id' key' hget => ?_⟩
          rw [JsMap.get?_delete] at hget
          split at hget
          · cases hget
          · exact hgrown id' key' hget
      · exact ⟨h.algs, hgrown⟩

theorem resolveKey_spec {subtle : Subtle ν} {source : KeySource ν} {caches : KeyCaches}
    (h : Sound subtle source caches) (alg : JwtAlgorithm) (header : List (JsString × Value ν)) :
    (resolveKey subtle source alg header caches).1 = keyFor subtle source alg header ∧
      Sound subtle source (resolveKey subtle source alg header caches).2 := by
  rw [resolveKey, keyFor]
  cases hmaterial : source.material header with
  | none => exact ⟨rfl, h⟩
  | some material =>
    obtain ⟨hsound, hfound⟩ := h.lookup (slotOf source alg material)
    dsimp only
    generalize hlookup : lookupKey caches (slotOf source alg material) = found at hsound hfound ⊢
    obtain ⟨cached, caches'⟩ := found
    cases cached with
    | some key =>
      obtain ⟨slot, hslot, hfits⟩ := hfound key rfl
      exact ⟨(hfits alg header material hmaterial hslot).symm, hsound⟩
    | none =>
      dsimp only
      cases himport : importKey subtle alg .verify material with
      | error e => exact ⟨rfl, hsound⟩
      | ok imported =>
        exact ⟨rfl, hsound.store fun slot hslot => fits_imported hmaterial hslot himport⟩

/-- What the caches can hold after any calls, in any interleaving of their steps. -/
inductive Reachable (subtle : Subtle ν) (source : KeySource ν) : KeyCaches → Prop
  | new : Reachable subtle source ⟨∅, ∅⟩
  | lookedUp {caches : KeyCaches} (slot : Option CacheSlot) (h : Reachable subtle source caches) :
    Reachable subtle source (lookupKey caches slot).2
  | stored {caches : KeyCaches} {alg : JwtAlgorithm} {header : List (JsString × Value ν)}
    {material : JwtKeyMaterial ν} {key : CryptoKey} (h : Reachable subtle source caches)
    (hmaterial : source.material header = some material)
    (himport : importKey subtle alg .verify material = .ok key) :
    Reachable subtle source (storeKey caches key (slotOf source alg material))

theorem Reachable.sound {subtle : Subtle ν} {source : KeySource ν} {caches : KeyCaches}
    (h : Reachable subtle source caches) : Sound subtle source caches := by
  induction h with
  | new => exact sound_empty subtle source
  | lookedUp slot _ ih => exact (ih.lookup slot).1
  | stored _ hmaterial himport ih =>
    exact ih.store fun slot hslot => fits_imported hmaterial hslot himport

end

end Daloy.Jwt
