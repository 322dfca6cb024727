import Daloy.Foundations.Base64
import Daloy.Foundations.Runs
import Daloy.ResponseCache.Keys
import Mathlib.Algebra.Ring.Int.Defs
import Mathlib.Logic.Function.Basic

/-! # The response cache

The hooks of `responseCache` of `src/response-cache.ts`, for one mount.

A store is given by what it answers. It answers a call of `get` with an error, with nothing, or with
what some earlier call of `set` has put under the key, in a step of its own. A background refresh is
one more request. The reading of a number is a function of any values.

What each call of `set` was made for is recorded with it; no hook reads it.
-/

namespace Daloy.ResponseCache
set_option autoImplicit false

open Daloy.Http Daloy.Json Daloy.Unicode

/-! ## Entries -/

structure CachedResponse where
  status : ℕ
  headers : List (JsString × JsString)
  body : JsString
  storedAt : ℤ
  freshUntil : ℤ
  staleUntil : ℤ
  vary : Option (List JsString) := none
  varyKey : Option JsString := none
  deriving DecidableEq

/-- What a call of `set` puts under a key, and the request and the response it was made for. -/
structure StoredCall where
  key : JsString
  entry : CachedResponse
  request : ℕ
  res : Response

inductive Freshness
  | uncacheable
  | lifetime (ms : ℕ)
  | fallback
  deriving DecidableEq

/-- `raw.replace(/^"|"$/g, "")`. -/
def unquote (raw : JsString) : JsString :=
  let raw := if raw.head? = some 0x22 then raw.tail else raw
  if raw.getLast? = some 0x22 then raw.dropLast else raw

/-- `parseSeconds(raw)`, where `number` reads a number, rounded down, that is finite and not
negative. -/
def parseSeconds (number : JsString → Option ℕ) (raw : Option JsString) : Option ℕ :=
  match raw with
  | none => none
  | some raw => if raw = [] then none else number (unquote raw)

def freshnessFromResponse (number : JsString → Option ℕ) (res : Response) : Freshness :=
  let cc := parseCacheControl (res.headers.get? (js "cache-control"))
  if res.headers.entries.any fun e => e.1 = setCookie then .uncacheable
  else if (cc.get? (js "no-store")).isSome || (cc.get? (js "private")).isSome ||
      (cc.get? (js "no-cache")).isSome then .uncacheable
  else match parseSeconds number (cc.get? (js "s-maxage")) with
    | some seconds => .lifetime (seconds * 1000)
    | none =>
      match parseSeconds number (cc.get? (js "max-age")) with
      | some seconds => .lifetime (seconds * 1000)
      | none => .fallback

def cachedResponse (opts : ResponseCacheOptions) (res : Response) (freshness : Freshness)
    (buf : List UInt8) (vary : Option (List JsString)) (varyKey : Option JsString) (now : ℤ) :
    CachedResponse :=
  let freshMs := match freshness with
    | .lifetime ms => ms
    | _ => opts.ttlMs
  { status := res.status
    headers := res.headers.entries.filter fun e => e.1 ∉ opts.excludedHeaders
    body := if buf.length ≠ 0 then encodeBase64 buf else []
    storedAt := now
    freshUntil := now + freshMs
    staleUntil := now + (freshMs + opts.swrMs)
    vary, varyKey }

inductive Outcome
  | hit
  | stale
  deriving DecidableEq

/-- What is answered from the cache. -/
structure ServedResponse where
  status : ℕ
  headers : JsMap JsString JsString
  body : List UInt8
  deriving DecidableEq

/-- `buildResponseFromCache`, `none` where the stored body is no base64. -/
def buildResponseFromCache (entry : CachedResponse) (outcome : Outcome)
    (statusHeaderName : Option JsString) (isHead : Bool) (now : ℤ) : Option ServedResponse :=
  let headers := entry.headers.foldl (fun headers e => headers.set e.1 e.2)
    (∅ : JsMap JsString JsString)
  let headers := headers.set (js "age") (NumberText.write ((now - entry.storedAt) / 1000).toNat)
  let headers := match statusHeaderName with
    | some name => headers.set name (if outcome = .hit then js "HIT" else js "STALE")
    | none => headers
  if isHead || entry.body = [] then some ⟨entry.status, headers, []⟩
  else (decodeBase64 entry.body).map fun body => ⟨entry.status, headers, body⟩

/-! ## Requests under way -/

inductive StoreError
  | rejected
  deriving DecidableEq

/-- Where `beforeHandle` stands: not called, waiting for one of its two calls of `get`, or done. -/
inductive Phase
  | idle
  | looking (key : JsString)
  | lookingVariant (key servedKey : JsString)
  | answered (response : Option ServedResponse) (call : StoredCall)
  | passed
  | threw

/-- A request with its pending key, the response whose body is read, and what is left to `set`
behind the variant. -/
structure Call where
  phase : Phase := .idle
  pending : Option JsString := none
  capturing : Option (JsString × Response × Freshness × List JsString) := none
  setting : Option StoredCall := none

/-- The requests, and the calls of `set` so far. -/
structure Server where
  call : ℕ → Call := fun _ => {}
  sets : List StoredCall := []

namespace Server

def setCall (s : Server) (r : ℕ) (c : Call) : Server :=
  { s with call := Function.update s.call r c }

end Server

/-- `beforeHandle` up to its first call of `get`. -/
def Call.beforeHandle (c : Call) (opts : ResponseCacheOptions) (req : CacheRequest) : Call :=
  match primaryKey opts req with
  | .error _ => { c with phase := .threw }
  | .ok none => { c with phase := .passed }
  | .ok (some (key, true)) => { c with phase := .passed, pending := some key }
  | .ok (some (key, false)) => { c with phase := .looking key }

def Call.pass (c : Call) (key : JsString) : Call := { c with phase := .passed, pending := some key }

/-- An entry that may be served is served while it is fresh, or stale with a refresh. -/
def Call.serve (c : Call) (opts : ResponseCacheOptions) (req : CacheRequest) (key : JsString)
    (stored : StoredCall) (now : ℤ) : Call :=
  let isHead : Bool := toUpperCase req.method = js "HEAD"
  if now < stored.entry.freshUntil then
    let response := buildResponseFromCache stored.entry .hit opts.statusHeaderName isHead now
    { c with phase := .answered response stored }
  else if opts.revalidate ∧ now < stored.entry.staleUntil then
    let response := buildResponseFromCache stored.entry .stale opts.statusHeaderName isHead now
    { c with phase := .answered response stored }
  else c.pass key

/-- `beforeHandle` behind its first call of `get`. -/
def Call.found (c : Call) (opts : ResponseCacheOptions) (req : CacheRequest) (key : JsString)
    (answer : Except StoreError (Option StoredCall)) (now : ℤ) : Call :=
  match answer with
  | .error _ => { c with phase := .threw }
  | .ok none => c.pass key
  | .ok (some stored) =>
    if (stored.entry.vary.getD []).length ≠ 0 then
      match varyKeyFor req.headers (stored.entry.vary.getD []) with
      | .error _ => { c with phase := .threw }
      | .ok wanted =>
        if stored.entry.varyKey ≠ some wanted then
          { c with phase := .lookingVariant key (variantKey key wanted) }
        else c.serve opts req key stored now
    else c.serve opts req key stored now

/-- `beforeHandle` behind its second call of `get`. -/
def Call.foundVariant (c : Call) (opts : ResponseCacheOptions) (req : CacheRequest) (key : JsString)
    (answer : Except StoreError (Option StoredCall)) (now : ℤ) : Call :=
  match answer with
  | .error _ => { c with phase := .threw }
  | .ok none => c.pass key
  | .ok (some stored) =>
    match varyKeyFor req.headers (stored.entry.vary.getD []) with
    | .error _ => { c with phase := .threw }
    | .ok wanted =>
      if some wanted ≠ stored.entry.varyKey then c.pass key else c.serve opts req key stored now

/-- `onSend` up to the reading of the body. -/
def Call.onSend (c : Call) (opts : ResponseCacheOptions) (number : JsString → Option ℕ)
    (res : Response) : Call :=
  match c.pending with
  | none => c
  | some key =>
    let c := { c with pending := none }
    let freshness := freshnessFromResponse number res
    if !opts.cacheableStatus res.status then c
    else if freshness = .uncacheable then c
    else match parseVary (res.headers.get? (js "vary")) with
      | none => c
      | some fields => { c with capturing := some (key, res, freshness, fields) }

/-- `onSend` behind the reading of the body: the calls of `set` it makes at once, and the one that
waits for the variant. -/
def capturedCalls (opts : ResponseCacheOptions) (req : CacheRequest) (r : ℕ) (key : JsString)
    (res : Response) (freshness : Freshness) (fields : List JsString) (now : ℤ) :
    Option StoredCall × Option StoredCall :=
  match readResponseBodyUpTo res.body opts.maxBodyBytes with
  | .error _ => (none, none)
  | .ok none => (none, none)
  | .ok (some buf) =>
    if fields.length ≠ 0 then
      match varyKeyFor req.headers fields with
      | .error _ => (none, none)
      | .ok varyKey =>
        let entry := cachedResponse opts res freshness buf (some fields) (some varyKey) now
        (some ⟨variantKey key varyKey, entry, r, res⟩, some ⟨key, entry, r, res⟩)
    else
      (some ⟨key, cachedResponse opts res freshness buf none none now, r, res⟩, none)

/-! ## Steps -/

/-- What happens around the hooks; `found` says which call of `set` the store answers with. -/
inductive CacheEvent
  | beforeHandle (r : ℕ)
  | found (r : ℕ) (answer : Except StoreError (Option ℕ)) (now : ℤ)
  | onSend (r : ℕ) (res : Response)
  | captured (r : ℕ) (now : ℤ)
  | variantSet (r : ℕ) (result : Except StoreError Unit)

/-- The store answers a call of `get`. -/
def Server.answer (s : Server) (key : JsString) :
    Except StoreError (Option ℕ) → Option (Except StoreError (Option StoredCall))
  | .error err => some (.error err)
  | .ok none => some (.ok none)
  | .ok (some i) =>
    match s.sets[i]? with
    | some stored => if stored.key = key then some (.ok (some stored)) else none
    | none => none

def Server.step (opts : ResponseCacheOptions) (number : JsString → Option ℕ)
    (requests : ℕ → CacheRequest) (s : Server) : CacheEvent → Option Server
  | .beforeHandle r =>
    match (s.call r).phase with
    | .idle => some (s.setCall r ((s.call r).beforeHandle opts (requests r)))
    | _ => none
  | .found r answer now =>
    match (s.call r).phase with
    | .looking key => (s.answer key answer).map fun found =>
        s.setCall r ((s.call r).found opts (requests r) key found now)
    | .lookingVariant key servedKey => (s.answer servedKey answer).map fun found =>
        s.setCall r ((s.call r).foundVariant opts (requests r) key found now)
    | _ => none
  | .onSend r res => some (s.setCall r ((s.call r).onSend opts number res))
  | .captured r now =>
    match (s.call r).capturing with
    | some (key, res, freshness, fields) =>
      let calls := capturedCalls opts (requests r) r key res freshness fields now
      some { s.setCall r { s.call r with capturing := none, setting := calls.2 } with
        sets := s.sets ++ calls.1.toList }
    | none => none
  | .variantSet r result =>
    match (s.call r).setting with
    | some stored =>
      some { s.setCall r { s.call r with setting := none } with
        sets := match result with
          | .ok () => s.sets ++ [stored]
          | .error _ => s.sets }
    | none => none

end Daloy.ResponseCache
