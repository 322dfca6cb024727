import Daloy.Egress.IpMatch
import Daloy.Http.Headers
import Mathlib.Data.Rat.Defs

/-! # Where a guarded request may go

The options of `fetchGuard` in `src/fetch-guard.ts` and its `validateUrl`.

* A `Url` is what is read of a parsed one, and the parser is any function.
* `not_isAddressAllowed_hardDeny`: no option opens an address of the floor.
-/

namespace Daloy.Egress
set_option autoImplicit false

open Daloy.Unicode Daloy.Text Daloy.Json Daloy.Http

/-! ## URLs -/

/-- `toLowerCase`: on the letters of ASCII it is what header fields are compared by. -/
class LowerCase where
  lower : JsString → JsString
  ascii : ∀ s : JsString, (∀ u ∈ s, u.toNat < 0x80) → lower s = toLowerCase s

/-- What is read of a `URL`; `rest` is its path, query and fragment. -/
structure Url where
  protocol : JsString
  username : JsString := []
  password : JsString := []
  hostname : JsString
  port : JsString := []
  rest : JsString := []
  deriving DecidableEq

def specialProtocols : List JsString := [js "http:", js "https:", js "ws:", js "wss:", js "ftp:"]

def Url.site (url : Url) : JsString × JsString × JsString := (url.protocol, url.hostname, url.port)

/-- `url.origin`; an opaque origin, which is written `null` whatever it is of, is `none`. -/
def Url.origin (url : Url) : Option (JsString × JsString × JsString) :=
  if url.protocol ∈ specialProtocols then some url.site else none

def Url.hasCredentials (url : Url) : Bool := url.username ≠ [] || url.password ≠ []

def Url.withoutCredentials (url : Url) : Url := { url with username := [], password := [] }

/-! ## Options -/

/-- A number of the language, as an option. -/
inductive Limit
  | nan
  | finite (q : ℚ)
  | infinite (negative : Bool)
  deriving DecidableEq

namespace Limit

/-- `Number.isFinite(x) && x >= 0`. -/
def isFiniteNonNegative : Limit → Bool
  | finite q => 0 ≤ q
  | _ => false

/-- `!(Number.isNaN(x) || x < 0)`. -/
def isNonNegative : Limit → Bool
  | finite q => 0 ≤ q
  | infinite negative => !negative
  | nan => false

/-- `n >= x`. -/
def reached : Limit → ℕ → Bool
  | nan, _ => false
  | finite q, n => q ≤ (n : ℚ)
  | infinite negative, _ => negative

/-- `n <= x + 1`. -/
def allows : Limit → ℕ → Bool
  | nan, _ => false
  | finite q, n => (n : ℚ) ≤ q + 1
  | infinite negative, _ => !negative

/-- `n <= x`. -/
def atLeast : Limit → ℕ → Bool
  | nan, _ => false
  | finite q, n => (n : ℚ) ≤ q
  | infinite negative, _ => !negative

end Limit

/-- `FetchGuardOptions`; `customFetch` when the underlying `fetch` is the caller's. -/
structure FetchGuardOptions where
  allowProtocols : Option (List JsString) := none
  allowAddresses : List JsString := []
  allowHosts : List JsString := []
  allowPorts : Option (List ℕ) := none
  timeoutMs : Limit := .finite 30000
  maxResponseBytes : Limit := .finite 10485760
  sensitiveHeaders : List JsString := []
  denyAddresses : List JsString := []
  allowLoopback : Bool := false
  allowPrivate : Bool := false
  allowLinkLocal : Bool := false
  allowUniqueLocal : Bool := false
  maxRedirects : Limit := .finite 5
  allowProtocolDowngrade : Bool := false
  maxReplayBodyBytes : Limit := .finite 1048576
  customFetch : Bool := false
  pinDns : Option Bool := none

def alwaysDeny : List JsString :=
  [js "0.0.0.0/8", js "100.64.0.0/10", js "169.254.169.254/32", js "169.254.170.2/32",
    js "169.254.170.23/32", js "192.0.0.0/24", js "192.0.2.0/24", js "198.18.0.0/15",
    js "198.51.100.0/24", js "203.0.113.0/24", js "224.0.0.0/4", js "240.0.0.0/4", js "::/128",
    js "ff00::/8", js "fd00:ec2::254/128"]

def badPorts : List ℕ :=
  [0, 1, 7, 9, 11, 13, 15, 17, 19, 20, 21, 22, 23, 25, 37, 42, 43, 53, 69, 77, 79, 87, 95, 101, 102,
    103, 104, 109, 110, 111, 113, 115, 117, 119, 123, 135, 137, 139, 143, 161, 179, 389, 427, 465,
    512, 513, 514, 515, 526, 530, 531, 532, 540, 548, 554, 556, 563, 587, 601, 636, 989, 990, 993,
    995, 1719, 1720, 1723, 2049, 3659, 4045, 4190, 5060, 5061, 6000, 6566, 6665, 6666, 6667, 6668,
    6669, 6679, 6697, 10080]

def loopback : List JsString := [js "127.0.0.0/8", js "::1/128"]
def linkLocal : List JsString := [js "169.254.0.0/16", js "fe80::/10"]
def privateRanges : List JsString := [js "10.0.0.0/8", js "172.16.0.0/12", js "192.168.0.0/16"]
def uniqueLocal : List JsString := [js "fc00::/7"]
def localNat64 : List JsString := [js "64:ff9b:1::/48"]

/-- What the returned function closes over. -/
structure FetchGuard where
  allowProtocols : List JsString
  allowHosts : List JsString
  allowPorts : Option (List ℕ)
  sensitiveHeaders : List JsString
  maxRedirects : Limit
  allowProtocolDowngrade : Bool
  maxReplayBodyBytes : Limit
  pinDns : Bool
  hardDenyMatchers : List IpMatcher
  softDenyMatchers : List IpMatcher
  allowMatchers : List IpMatcher

inductive OptionError
  | timeoutMs
  | maxResponseBytes
  | maxReplayBodyBytes
  | noFetch
  | cidr (error : CidrError)

/-- `for (const c of ranges) matchers.push(compileCidrMatcher(c))`. -/
def compileAll (ranges : List JsString) : Except OptionError (List IpMatcher) :=
  ranges.mapM fun range => (compileCidrMatcher range).mapError OptionError.cidr

/-- What a runtime offers: whether it has a `fetch`, whether it looks like Node, and its URL parser,
with the base a text is resolved against. -/
structure Runtime where
  hasFetch : Bool
  isNode : Bool
  newUrl : JsString → Option Url → Option Url

def closed (allowed : Bool) (ranges : List JsString) : List JsString := if allowed then [] else ranges

variable [LowerCase]

open LowerCase

def fetchGuard (rt : Runtime) (options : FetchGuardOptions) : Except OptionError FetchGuard := do
  if !options.timeoutMs.isFiniteNonNegative then throw .timeoutMs
  if !options.maxResponseBytes.isNonNegative then throw .maxResponseBytes
  if !options.maxReplayBodyBytes.isFiniteNonNegative then throw .maxReplayBodyBytes
  if !(options.customFetch || rt.hasFetch) then throw .noFetch
  let hardDenyMatchers ← compileAll (alwaysDeny ++ options.denyAddresses)
  let softDenyMatchers ← compileAll (closed options.allowLoopback loopback ++
    closed options.allowPrivate privateRanges ++ closed options.allowLinkLocal linkLocal ++
    closed options.allowUniqueLocal uniqueLocal ++ localNat64)
  let allowMatchers ← compileAll options.allowAddresses
  return {
    allowProtocols := (options.allowProtocols.getD [js "http:", js "https:"]).map lower
    allowHosts := options.allowHosts.map lower
    allowPorts := options.allowPorts
    sensitiveHeaders := options.sensitiveHeaders.map lower
    maxRedirects := options.maxRedirects
    allowProtocolDowngrade := options.allowProtocolDowngrade
    maxReplayBodyBytes := options.maxReplayBodyBytes
    pinDns := options.pinDns.getD (!options.customFetch && rt.isNode)
    hardDenyMatchers, softDenyMatchers, allowMatchers }

/-- `SsrfBlockReason`, the reasons that are thrown before a response is returned. -/
inductive SsrfBlockReason
  | protocolNotAllowed
  | dnsResolutionFailed
  | addressNotAllowed
  | tooManyRedirects
  | credentialsInUrl
  | invalidUrl
  | redirectBodyNotReplayable
  | portNotAllowed
  | protocolDowngrade
  deriving DecidableEq

/-- `SsrfBlockedError`; the URL is a parsed one or the text that could not be parsed. -/
structure SsrfBlockedError where
  url : JsString ⊕ Url
  reason : SsrfBlockReason
  address : Option JsString := none

/-! ## Addresses -/

/-- The four bytes from `o` on, each with `x` taken out. -/
def embeddedAt (b : List UInt8) (o : ℕ) (x : UInt8) : ParsedIp :=
  ⟨.v4, (List.range 4).map fun i => b.getD (o + i) 0 ^^^ x, rfl⟩

def embeddedIPv4s (ip : ParsedIp) : List ParsedIp :=
  let b := ip.bytes
  let zero (lo hi : ℕ) : Bool := (b.drop lo).take (hi - lo) |>.all (· == 0)
  let group (i : ℕ) : ℕ := (b.getD (2 * i) 0).toNat * 256 + (b.getD (2 * i + 1) 0).toNat
  if ip.family ≠ .v6 then []
  else if group 0 = 0 ∧ group 1 = 0 ∧ zero 4 8 then
    if (group 4 = 0 ∧ group 5 = 0xFFFF) ∨ (group 4 = 0xFFFF ∧ group 5 = 0) then [embeddedAt b 12 0]
    else if group 4 = 0 ∧ group 5 = 0 then
      if zero 12 15 ∧ (b.getD 15 0).toNat ≤ 1 then [] else [embeddedAt b 12 0]
    else []
  else if group 0 = 0x0064 ∧ group 1 = 0xFF9B ∧ zero 4 12 then [embeddedAt b 12 0]
  else if group 0 = 0x0064 ∧ group 1 = 0xFF9B ∧ b.getD 4 0 = 0 ∧ b.getD 5 0 = 1 then
    [embeddedAt b 12 0]
  else if group 0 = 0x2002 then [embeddedAt b 2 0]
  else if group 0 = 0x2001 ∧ group 1 = 0 then [embeddedAt b 4 0, embeddedAt b 12 0xFF]
  else []

namespace FetchGuard

omit [LowerCase]

def isSingleAddressAllowed (g : FetchGuard) (parsed : ParsedIp) : Bool :=
  if g.hardDenyMatchers.any (matchesMatcher parsed) then false
  else if g.allowMatchers.any (matchesMatcher parsed) then true
  else !g.softDenyMatchers.any (matchesMatcher parsed)

def isAddressAllowed (g : FetchGuard) (parsed : ParsedIp) : Bool :=
  g.isSingleAddressAllowed parsed && (embeddedIPv4s parsed).all g.isSingleAddressAllowed

theorem not_isAddressAllowed_hardDeny {g : FetchGuard} {parsed ip : ParsedIp} {m : IpMatcher}
    (hm : m ∈ g.hardDenyMatchers) (hmatch : matchesMatcher ip m = true)
    (hip : ip = parsed ∨ ip ∈ embeddedIPv4s parsed) : g.isAddressAllowed parsed = false := by
  have hdeny : g.isSingleAddressAllowed ip = false :=
    if_pos (List.any_eq_true.mpr ⟨m, hm, hmatch⟩)
  rw [isAddressAllowed, Bool.and_eq_false_iff]
  obtain rfl | hmem := hip
  · exact .inl hdeny
  · exact .inr (List.all_eq_false.mpr ⟨ip, hmem, by simp [hdeny]⟩)

end FetchGuard

/-! ## Destinations -/

def bareHostname (raw : JsString) : JsString :=
  if raw.head? = some 0x5B ∧ raw.getLast? = some 0x5D then raw.tail.dropLast else raw

def portOf (url : Url) (protocol : JsString) : ℕ :=
  if url.port ≠ [] then decimal url.port else if protocol = js "https:" then 443 else 80

namespace FetchGuard

/-- Whether `allowHosts` names the host, on its own, without its brackets or with the port. -/
def trustsHost (g : FetchGuard) (url : Url) (port : ℕ) : Bool :=
  lower url.hostname ∈ g.allowHosts || lower (bareHostname url.hostname) ∈ g.allowHosts ||
    lower url.hostname ++ [Egress.colon] ++ NumberText.write port ∈ g.allowHosts

omit [LowerCase] in
def checkAddresses (g : FetchGuard) (url : Url) : List JsString → Except SsrfBlockedError Unit
  | [] => .ok ()
  | a :: addrs =>
    match parseIp a with
    | none => .error { url := .inr url, reason := .dnsResolutionFailed, address := some a }
    | some p =>
      if g.isAddressAllowed p then checkAddresses g url addrs
      else .error { url := .inr url, reason := .addressNotAllowed, address := some a }

/-- `validateUrl`: the address to pin the connection to, if there is one. `resolve` is what the
resolver answers on this call, `none` where it rejects. -/
def validateUrl (g : FetchGuard) (resolve : JsString → Option (List JsString)) (url : Url) :
    Except SsrfBlockedError (Option JsString) :=
  let proto := lower url.protocol
  let hostname := bareHostname url.hostname
  let port := portOf url proto
  if proto ∉ g.allowProtocols then .error { url := .inr url, reason := .protocolNotAllowed }
  else if url.hostname = [] then .error { url := .inr url, reason := .invalidUrl }
  else if port ∈ badPorts ∨ (∃ ports ∈ g.allowPorts, port ∉ ports) then
    .error { url := .inr url, reason := .portNotAllowed }
  else if g.trustsHost url port then .ok none
  else match parseIp hostname with
    | some literal =>
      if g.isAddressAllowed literal then .ok none
      else .error { url := .inr url, reason := .addressNotAllowed, address := some hostname }
    | none =>
      match resolve hostname with
      | none | some [] =>
        .error { url := .inr url, reason := .dnsResolutionFailed, address := some hostname }
      | some (a :: addrs) => (g.checkAddresses url (a :: addrs)).map fun _ => some a

end FetchGuard

end Daloy.Egress
