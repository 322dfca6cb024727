import Daloy.Http.Responses
import Daloy.Http.Headers
import Mathlib.Data.List.Dedup
import Mathlib.Data.List.Sort

/-! # Cache keys

`defaultKey`, `parseVary`, `varyKeyFor` and `variantKey` of `src/response-cache.ts`, and the first
half of `beforeHandle`: which requests the cache sees, and under which key.

* `primaryKey_inj`: two requests with one key agree in everything the key is made of.
-/

namespace Daloy.ResponseCache
set_option autoImplicit false

open Daloy.Fallible Daloy.Http Daloy.Json Daloy.Text Daloy.Unicode

/-! ## Options and requests -/

/-- `ResponseCacheOptions` without a key generator, as `responseCache` has normalized them. -/
structure ResponseCacheOptions where
  methods : List JsString := [js "GET", js "HEAD"]
  varyHeaders : List JsString := []
  cacheAuthorization : Bool := false
  cacheCookie : Bool := false
  cacheClientIdentity : Bool := false
  groupId : Option JsString := none
  cacheableStatus : ℕ → Bool := fun status => status = 200
  excludedHeaders : List JsString := []
  statusHeaderName : Option JsString := some (js "x-cache")
  maxBodyBytes : ℕ := 1048576
  ttlMs : ℕ := 60000
  swrMs : ℕ := 0
  revalidate : Bool := false

namespace ResponseCacheOptions

def authorizationHandled (opts : ResponseCacheOptions) : Bool :=
  opts.cacheAuthorization || js "authorization" ∈ opts.varyHeaders

def cookieHandled (opts : ResponseCacheOptions) : Bool :=
  opts.cacheCookie || js "cookie" ∈ opts.varyHeaders

def clientIdentityHandled (opts : ResponseCacheOptions) : Bool := opts.cacheClientIdentity

def keyPrefix (opts : ResponseCacheOptions) : JsString :=
  match opts.groupId with
  | some groupId => if groupId = [] then [] else groupId ++ [colon]
  | none => []

end ResponseCacheOptions

/-- What `beforeHandle` reads of a request: `principal` is what the option of that name answers,
`tenant` and `identity` are the strings that other hooks have recorded. -/
structure CacheRequest where
  method : JsString
  url : JsString
  headers : Headers := {}
  tenant : Option JsString := none
  principal : Option JsString := none
  identity : Option JsString := none
  replayScopes : Bool := true
  isToken : IsToken method := by decide
  plain : ∀ u ∈ url, u ≠ 0x00 ∧ u ≠ 0x0A ∧ u ≠ 0x0D := by decide

/-! ## Header lists -/

def parseCacheControl (value : Option JsString) : JsMap JsString JsString :=
  (splitOn comma (value.getD [])).foldl (fun out part =>
    let token := trim part
    if token = [] then out
    else if equalsSign ∈ token then
      out.set (toLowerCase (trim (token.takeWhile (· ≠ equalsSign))))
        (trim ((token.dropWhile (· ≠ equalsSign)).drop 1))
    else out.set (toLowerCase token) []) ∅

/-- The field names of a `Vary` header, in their order. -/
def varyNames (raw : Option JsString) : List JsString :=
  ((splitOn comma (raw.getD [])).map fun part => toLowerCase (trim part)).filter (· ≠ [])

/-- The order of `sort()`, by code units. -/
def sortsBefore : JsString → JsString → Bool
  | [], _ => true
  | _ :: _, [] => false
  | u :: a, v :: b => u < v || (u == v && sortsBefore a b)

/-- `parseVary(raw)`, `none` for `"*"`. -/
def parseVary (raw : Option JsString) : Option (List JsString) :=
  if js "*" ∈ varyNames raw then none
  else some ((varyNames raw).dedup.insertionSort fun a b => sortsBefore a b = true)

/-! ## Keys -/

/-- What `appendPartition` appends. -/
def component (name value : JsString) : JsString :=
  name ++ equalsSign :: (NumberText.write value.length ++ colon :: (value ++ [lineFeed]))

def appendPartition (acc name value : JsString) : JsString := acc ++ component name value

def varyKeyFor (headers : Headers) (fields : List JsString) : Except HeaderError JsString :=
  fields.foldlM (fun key name => do
    let value ← headers.get name
    return appendPartition key name (value.getD [])) []

def variantKey (primary varyKey : JsString) : JsString :=
  primary ++ 0x00 :: 0x76 :: 0x00 :: varyKey

def CacheRequest.target (req : CacheRequest) : JsString := req.url.takeWhile (· ≠ 0x23)

def defaultKey (req : CacheRequest) (varyHeaders : List JsString) : Except HeaderError JsString :=
  varyHeaders.foldlM (fun key name => do
    let value ← req.headers.get name
    return key ++ lineFeed :: (name ++ colon :: space :: value.getD []))
    (req.method ++ space :: req.target)

def CacheRequest.principalId (req : CacheRequest) : Option JsString := req.principal.filter (· ≠ [])

def CacheRequest.partition (req : CacheRequest) : JsString :=
  let acc := match req.tenant with
    | some tenant => appendPartition [] (js "tenant") tenant
    | none => []
  match req.principalId with
  | some principal => appendPartition acc (js "principal") principal
  | none => acc

def CacheRequest.unhandled (opts : ResponseCacheOptions) (req : CacheRequest) : Bool :=
  (!opts.authorizationHandled && req.headers.has (js "authorization")) ||
    (!opts.cookieHandled && req.headers.has (js "cookie")) ||
      (!opts.clientIdentityHandled && req.identity.isSome)

/-- `beforeHandle` up to the lookup: the key, and whether the read is bypassed. -/
def primaryKey (opts : ResponseCacheOptions) (req : CacheRequest) :
    Except HeaderError (Option (JsString × Bool)) := do
  if !req.replayScopes then return none
  if toUpperCase req.method ∉ opts.methods then return none
  let cacheControl := parseCacheControl (← req.headers.get (js "cache-control"))
  if (cacheControl.get? (js "no-store")).isSome then return none
  if req.principalId.isNone && req.unhandled opts then return none
  let rawKey ← defaultKey req opts.varyHeaders
  return some (opts.keyPrefix ++ req.partition ++ rawKey,
    (cacheControl.get? (js "no-cache")).isSome)

/-! ## What a key is made of -/

theorem foldlM_get_eq_ok {headers : Headers} {line : JsString → JsString → JsString}
    {names : List JsString} {acc out : JsString}
    (h : names.foldlM (fun key name => do
      let value ← headers.get name
      return key ++ line name (value.getD [])) acc = .ok out) :
    out = acc ++ names.flatMap fun name => line name (headers.value name) := by
  induction names generalizing acc with
  | nil =>
    rw [List.flatMap_nil, List.append_nil]
    exact (Except.ok.inj h).symm
  | cons name names ih =>
    rw [List.foldlM_cons] at h
    obtain ⟨acc', hline, h⟩ := bind_eq_ok.mp h
    obtain ⟨value, hvalue, hacc⟩ := bind_eq_ok.mp hline
    obtain rfl : acc ++ line name (value.getD []) = acc' := Except.ok.inj hacc
    rw [ih h, Headers.get_eq_ok hvalue, List.flatMap_cons, List.append_assoc]

theorem varyKeyFor_eq {headers : Headers} {fields : List JsString} {key : JsString}
    (h : varyKeyFor headers fields = .ok key) :
    key = fields.flatMap fun name => component name (headers.value name) := by
  rw [foldlM_get_eq_ok h, List.nil_append]

theorem defaultKey_eq {req : CacheRequest} {varyHeaders : List JsString} {key : JsString}
    (h : defaultKey req varyHeaders = .ok key) :
    key = req.method ++ space :: (req.target ++ varyHeaders.flatMap fun name =>
      lineFeed :: (name ++ colon :: space :: req.headers.value name)) := by
  rw [@foldlM_get_eq_ok req.headers (fun name value => lineFeed :: (name ++ colon :: space :: value))
    _ _ _ h, List.append_assoc, List.cons_append]

theorem component_inj {name value value' rest rest' : JsString}
    (h : component name value ++ rest = component name value' ++ rest') :
    value = value' ∧ rest = rest' := by
  have hcolon (n : ℕ) : colon ∉ (NumberText.write n : JsString) := by
    intro hmem
    exact absurd (write_digits n _ hmem) (by decide)
  simp only [component, List.append_assoc, List.cons_append, List.nil_append] at h
  -- the name, the length up to its colon, and as much as the length says
  obtain ⟨-, h⟩ := List.cons.inj (List.append_cancel_left h)
  obtain ⟨hlength, h⟩ := separator_inj (hcolon _) (hcolon _) h
  obtain ⟨hvalue, hrest⟩ := List.append_inj h (write_injective hlength)
  exact ⟨hvalue, (List.cons.inj hrest).2⟩

/-- **Secondary keys are unambiguous**: two requests with one key for the same fields have the same
values in them. -/
theorem varyKeyFor_inj {headers headers' : Headers} {fields : List JsString} {key : JsString}
    (h : varyKeyFor headers fields = .ok key) (h' : varyKeyFor headers' fields = .ok key) :
    ∀ name ∈ fields, headers.value name = headers'.value name := by
  have heq := (varyKeyFor_eq h).symm.trans (varyKeyFor_eq h')
  clear h h'
  induction fields with
  | nil => simp
  | cons name fields ih =>
    rw [List.flatMap_cons, List.flatMap_cons] at heq
    obtain ⟨hvalue, hrest⟩ := component_inj heq
    intro n hn
    rcases List.mem_cons.mp hn with rfl | hn
    · exact hvalue
    · exact ih hrest n hn

/-! ## Lines -/

def IsTail (tail : JsString) : Prop := tail = [] ∨ ∃ rest, tail = 0x00 :: rest

theorem tail_inj {x x' tail tail' : JsString} (hx : 0x00 ∉ x) (hx' : 0x00 ∉ x')
    (htail : IsTail tail) (htail' : IsTail tail') (h : x ++ tail = x' ++ tail') :
    x = x' ∧ tail = tail' := by
  rcases htail with rfl | ⟨rest, rfl⟩
  · rcases htail' with rfl | ⟨rest', rfl⟩
    · exact ⟨by simpa using h, rfl⟩
    · rw [List.append_nil] at h
      exact absurd (by simp [h]) hx
  · rcases htail' with rfl | ⟨rest', rfl⟩
    · rw [List.append_nil] at h
      exact absurd (by simp [← h]) hx'
    · obtain ⟨hfront, hrest⟩ := separator_inj hx hx' h
      exact ⟨hfront, by rw [hrest]⟩

theorem lines_inj {names : List JsString} {value value' : JsString → JsString}
    {x x' tail tail' : JsString} (hx : ∀ u ∈ x, u ≠ 0x00 ∧ u ≠ lineFeed)
    (hx' : ∀ u ∈ x', u ≠ 0x00 ∧ u ≠ lineFeed)
    (hvalue : ∀ name, ∀ u ∈ value name, u ≠ 0x00 ∧ u ≠ lineFeed)
    (hvalue' : ∀ name, ∀ u ∈ value' name, u ≠ 0x00 ∧ u ≠ lineFeed)
    (htail : IsTail tail) (htail' : IsTail tail')
    (h : x ++ ((names.flatMap fun name => lineFeed :: (name ++ colon :: space :: value name)) ++ tail) =
      x' ++ ((names.flatMap fun name => lineFeed :: (name ++ colon :: space :: value' name)) ++ tail')) :
    x = x' ∧ (∀ name ∈ names, value name = value' name) ∧ tail = tail' := by
  induction names generalizing x x' with
  | nil =>
    rw [List.flatMap_nil, List.flatMap_nil, List.nil_append, List.nil_append] at h
    obtain ⟨hfront, htails⟩ :=
      tail_inj (fun hu => (hx _ hu).1 rfl) (fun hu => (hx' _ hu).1 rfl) htail htail' h
    exact ⟨hfront, by simp, htails⟩
  | cons name names ih =>
    simp only [List.flatMap_cons, List.cons_append, List.append_assoc] at h
    obtain ⟨hfront, h⟩ :=
      separator_inj (fun hu => (hx _ hu).2 rfl) (fun hu => (hx' _ hu).2 rfl) h
    obtain ⟨-, h⟩ := List.cons.inj (List.append_cancel_left h)
    obtain ⟨-, h⟩ := List.cons.inj h
    obtain ⟨hself, hvalues, htails⟩ := ih (hvalue name) (hvalue' name) h
    refine ⟨hfront, ?_, htails⟩
    intro n hn
    rcases List.mem_cons.mp hn with rfl | hn
    · exact hself
    · exact hvalues n hn

/-! ## Partitions -/

/-- A unit of a name: neither the equals sign behind it nor the space behind a method. -/
def isNameUnit (u : UInt16) : Bool := u ≠ equalsSign && u ≠ space

/-- Nothing that starts with the component of `name`. -/
def Avoids (name rest : JsString) : Prop := ∀ t, rest ≠ name ++ equalsSign :: t

def optional (name : JsString) (value : Option JsString) : JsString :=
  match value with
  | some value => component name value
  | none => []

theorem optional_inj {name rest rest' : JsString} {value value' : Option JsString}
    (hrest : Avoids name rest) (hrest' : Avoids name rest')
    (h : optional name value ++ rest = optional name value' ++ rest') :
    value = value' ∧ rest = rest' := by
  have hstart (v r : JsString) : component name v ++ r =
      name ++ equalsSign :: (NumberText.write v.length ++ colon :: (v ++ lineFeed :: r)) := by
    simp [component]
  cases value with
  | none =>
    cases value' with
    | none => exact ⟨rfl, h⟩
    | some v' => exact absurd (h.trans (hstart v' rest')) (hrest _)
  | some v =>
    cases value' with
    | none => exact absurd (h.symm.trans (hstart v rest)) (hrest' _)
    | some v' =>
      obtain ⟨rfl, hrests⟩ := component_inj h
      exact ⟨rfl, hrests⟩

theorem CacheRequest.partition_eq (req : CacheRequest) :
    req.partition = optional (js "tenant") req.tenant ++
      optional (js "principal") req.principalId := by
  rw [CacheRequest.partition]
  cases req.tenant <;> cases req.principalId <;> simp [optional, appendPartition]

theorem CacheRequest.isNameUnit_method (req : CacheRequest) :
    ∀ u ∈ req.method, isNameUnit u = true := by
  intro u hu
  have htoken := req.isToken.2 u hu
  rw [isNameUnit, Bool.and_eq_true, decide_eq_true_iff, decide_eq_true_iff]
  constructor
  · rintro rfl
    exact absurd htoken (by decide)
  · rintro rfl
    exact absurd htoken (by decide)

theorem space_notMem_method (req : CacheRequest) : space ∉ req.method := by
  intro hmem
  exact absurd (req.isNameUnit_method _ hmem) (by decide)

theorem avoids_method (req : CacheRequest) {name : JsString} (hname : ∀ u ∈ name, isNameUnit u = true)
    (rest : JsString) : Avoids name (req.method ++ space :: rest) := by
  intro t h
  obtain ⟨-, hsep, -⟩ := span_inj req.isNameUnit_method hname (by decide) (by decide) h
  exact absurd hsep (by decide)

/-! ## Primary keys -/

/-- What the key of a request is made of. -/
structure SameKey (opts : ResponseCacheOptions) (req req' : CacheRequest) : Prop where
  method : req.method = req'.method
  target : req.target = req'.target
  values : ∀ name ∈ opts.varyHeaders, req.headers.value name = req'.headers.value name
  tenant : req.tenant = req'.tenant
  principal : req.principalId = req'.principalId

theorem primaryKey_eq {opts : ResponseCacheOptions} {req : CacheRequest} {key : JsString}
    {bypassRead : Bool} (h : primaryKey opts req = .ok (some (key, bypassRead))) :
    (req.principalId = none → req.unhandled opts = false) ∧
      key = opts.keyPrefix ++ (optional (js "tenant") req.tenant ++
        (optional (js "principal") req.principalId ++ (req.method ++ space :: (req.target ++
          opts.varyHeaders.flatMap fun name =>
            lineFeed :: (name ++ colon :: space :: req.headers.value name))))) := by
  rw [primaryKey] at h
  split at h
  · simp [pure, Except.pure] at h
  split at h
  · simp [pure, Except.pure] at h
  obtain ⟨cc, -, h⟩ := bind_eq_ok.mp h
  dsimp only at h
  split at h
  · simp [pure, Except.pure] at h
  split at h
  · simp [pure, Except.pure] at h
  next hgate =>
    obtain ⟨rawKey, hraw, h⟩ := bind_eq_ok.mp h
    obtain ⟨hkey, -⟩ := Prod.mk.inj (Option.some.inj (Except.ok.inj h))
    constructor
    · intro hnone
      simpa [hnone] using hgate
    · rw [← hkey, defaultKey_eq hraw, req.partition_eq, List.append_assoc, List.append_assoc]

theorem primaryKey_inj {opts : ResponseCacheOptions} {req req' : CacheRequest}
    {key key' tail tail' : JsString} {bypassRead bypassRead' : Bool}
    (h : primaryKey opts req = .ok (some (key, bypassRead)))
    (h' : primaryKey opts req' = .ok (some (key', bypassRead')))
    (htail : IsTail tail) (htail' : IsTail tail') (heq : key ++ tail = key' ++ tail') :
    SameKey opts req req' ∧ tail = tail' := by
  have htenant : ∀ u ∈ js "tenant", isNameUnit u = true := by decide
  have hprincipal : ∀ u ∈ js "principal", isNameUnit u = true := by decide
  have hplain (req : CacheRequest) : ∀ u ∈ req.target, u ≠ 0x00 ∧ u ≠ lineFeed := by
    intro u hu
    obtain ⟨hnul, hlf, -⟩ := req.plain u ((List.takeWhile_sublist _).subset hu)
    exact ⟨hnul, hlf⟩
  have havoids (req : CacheRequest) (rest : JsString) : Avoids (js "tenant")
      (optional (js "principal") req.principalId ++ (req.method ++ space :: rest)) := by
    intro t
    cases req.principalId with
    | none => exact avoids_method req htenant rest t
    | some principal =>
      intro heq
      simp only [optional, component, List.append_assoc, List.cons_append] at heq
      obtain ⟨hname, -⟩ := span_inj hprincipal htenant (by decide) (by decide) heq
      exact absurd hname (by decide)
  rw [(primaryKey_eq h).2, (primaryKey_eq h').2] at heq
  simp only [List.append_assoc, List.cons_append] at heq
  -- tenant, principal, method, URL and lines, one after the other
  obtain ⟨htenants, heq⟩ := optional_inj (havoids req _) (havoids req' _)
    (List.append_cancel_left heq)
  obtain ⟨hprincipals, heq⟩ := optional_inj (avoids_method req hprincipal _)
    (avoids_method req' hprincipal _) heq
  have hmethods := separator_inj (space_notMem_method req) (space_notMem_method req') heq
  obtain ⟨htargets, hvalues, htails⟩ := lines_inj (hplain req) (hplain req')
    req.headers.value_valid req'.headers.value_valid htail htail' hmethods.2
  exact ⟨⟨hmethods.1, htargets, hvalues, htenants, hprincipals⟩, htails⟩

end Daloy.ResponseCache
