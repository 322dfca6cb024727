import Daloy.Egress.IpMatch
import Daloy.Http.Headers

/-! # The client's address behind proxies

How `src/conn-info.ts` reads the address of a client from the headers that proxies set, counting
from the right.

* `resolveForwardedClientIp`: with the peer's check in front.
* `named`: the address that one element of a header names.
-/

namespace Daloy.Proxy
set_option autoImplicit false

open Daloy.Egress Daloy.Http Daloy.Text Daloy.Unicode

/-! ## The source -/

inductive ForwardedHeaderSource
  | xForwardedFor
  | forwarded
  | cfConnectingIp
  deriving DecidableEq

/-- What is read of a request: the values of the headers, and the peer's address. -/
structure Request where
  xForwardedFor : Option JsString := none
  forwarded : Option JsString := none
  cfConnectingIp : Option JsString := none
  xRealIp : Option JsString := none
  remoteAddress : Option JsString := none

/-- `s && parseIp(s) ? s : undefined`. -/
def ifAddress (s : JsString) : Option JsString :=
  if s ≠ [] ∧ (parseIp s).isSome then some s else none

def pickByHops (parts : List JsString) (hops : ℕ) : Option JsString :=
  if parts.length < hops then none
  else (parts[parts.length - hops]?).bind fun part => ifAddress (trim part)

def pickForwardedForByHops (header : Option JsString) (hops : ℕ) : Option JsString :=
  match header with
  | none => none
  | some header =>
    if header = [] ∨ hops < 1 then none else pickByHops (splitOn comma header) hops

def backslash : UInt16 := 0x5C
def quoteUnit : UInt16 := 0x22
def semicolon : UInt16 := 0x3B
def openBracket : UInt16 := 0x5B
def closeBracket : UInt16 := 0x5D

def isLineTerminator (u : UInt16) : Bool := u == 0x0A || u == 0x0D || u == 0x2028 || u == 0x2029

/-- `s.replace(/\\(.)/g, "$1")`. -/
def unescape : JsString → JsString
  | [] => []
  | [u] => [u]
  | u :: v :: s =>
    if u = backslash ∧ isLineTerminator v = false then v :: unescape s else u :: unescape (v :: s)

/-- The node of a `for` value: without quotes, and without a port where there is one. -/
def nodeOf (value : JsString) : JsString :=
  let v := trim value
  let v := if 2 ≤ v.length ∧ v.head? = some quoteUnit ∧ v.getLast? = some quoteUnit then
      unescape (v.drop 1).dropLast
    else v
  if v.head? = some openBracket then
    if closeBracket ∈ v then (v.drop 1).takeWhile (· ≠ closeBracket) else v
  else if v.head? ≠ some Egress.colon ∧ v.count Egress.colon = 1 then
    v.takeWhile (· ≠ Egress.colon)
  else v

/-- The first `for` parameter of an element. -/
def forValue (element : JsString) : Option JsString :=
  (splitOn semicolon element).findSome? fun pair =>
    if equalsSign ∉ pair then none
    else if toLowerCase (trim (pair.takeWhile (· ≠ equalsSign))) ≠ js "for" then none
    else some (nodeOf ((pair.dropWhile (· ≠ equalsSign)).drop 1))

def slotOf (element : JsString) : JsString :=
  match forValue element with
  | some v => if (parseIp v).isSome then v else js "unknown"
  | none => js "unknown"

def parseForwardedHeader (header : Option JsString) : List JsString :=
  match header with
  | none => []
  | some header => if header = [] then [] else (splitOn comma header).map slotOf

def readForwardedClientIp (request : Request) (source : ForwardedHeaderSource) (hops : ℕ) :
    Option JsString :=
  if hops < 1 then none
  else match source with
    | .forwarded => pickByHops (parseForwardedHeader request.forwarded) hops
    | .cfConnectingIp =>
      if hops ≠ 1 then none else (request.cfConnectingIp).bind fun v => ifAddress (trim v)
    | .xForwardedFor => pickForwardedForByHops request.xForwardedFor hops

def isTrustedPeer (request : Request) (trustedPeers : List IpMatcher) : Bool :=
  match request.remoteAddress with
  | none => false
  | some peer =>
    if peer = [] then false
    else match parseIp peer with
      | none => false
      | some parsed => trustedPeers.any fun m => matchesMatcher parsed m

def resolveForwardedClientIp (request : Request) (hops : ℕ := 1)
    (trustedPeers : Option (List IpMatcher) := none)
    (source : ForwardedHeaderSource := .xForwardedFor) : Option JsString :=
  if trustedPeers.any fun peers => !isTrustedPeer request peers then none
  else if source ≠ .xForwardedFor then readForwardedClientIp request source hops
  else match request.xForwardedFor with
    | some forwarded => pickForwardedForByHops (some forwarded) hops
    | none =>
      if hops ≠ 1 then none else (request.xRealIp).bind fun v => ifAddress (trim v)

/-! ## One slot -/

/-- The headers that list one element for each hop. -/
inductive HopList
  | xForwardedFor
  | forwarded

namespace HopList

def source : HopList → ForwardedHeaderSource
  | xForwardedFor => .xForwardedFor
  | forwarded => .forwarded

def value (list : HopList) (request : Request) : Option JsString :=
  match list with
  | xForwardedFor => request.xForwardedFor
  | forwarded => request.forwarded

def withValue (list : HopList) (request : Request) (value : JsString) : Request :=
  match list with
  | xForwardedFor => { request with xForwardedFor := some value }
  | forwarded => { request with forwarded := some value }

def named (list : HopList) (element : JsString) : Option JsString :=
  match list with
  | xForwardedFor => ifAddress (trim element)
  | forwarded => (forValue element).bind fun v =>
      if (parseIp v).isSome then ifAddress (trim v) else none

end HopList

variable {request : Request} {hops : ℕ} {value text : JsString}

theorem pickByHops_eq {parts : List JsString} {part : JsString} (hlength : hops ≤ parts.length)
    (hpart : parts[parts.length - hops]? = some part) :
    pickByHops parts hops = ifAddress (trim part) := by
  rw [pickByHops, if_neg (by omega), hpart, Option.bind_some]

theorem ifAddress_slotOf (element : JsString) :
    ifAddress (trim (slotOf element)) = HopList.forwarded.named element := by
  have hunknown : ifAddress (trim (js "unknown")) = none := by decide
  rw [slotOf, HopList.named]
  cases forValue element with
  | none => exact hunknown
  | some v =>
    rw [Option.bind_some]
    by_cases hparse : (parseIp v).isSome = true
    · simp only [hparse, if_true]
    · simp only [hparse, Bool.false_eq_true, if_false, hunknown]

theorem readHops_eq (list : HopList) {element : JsString} (hvalue : list.value request = some value)
    (hhops : 1 ≤ hops) (hlength : hops ≤ (splitOn comma value).length)
    (helement : (splitOn comma value)[(splitOn comma value).length - hops]? = some element) :
    resolveForwardedClientIp request hops none list.source = list.named element := by
  have hone : ¬ hops < 1 := by omega
  have hempty : value = [] → element = [] := by
    rintro rfl
    have hone : hops = 1 := by
      have hsplit : (splitOn comma []).length = 1 := rfl
      omega
    subst hone
    exact (Option.some.inj helement).symm
  cases list with
  | xForwardedFor =>
    rw [HopList.value] at hvalue
    rw [resolveForwardedClientIp, HopList.source, HopList.named, hvalue]
    simp only [Option.any_none, Bool.false_eq_true, if_false, ne_eq, not_true_eq_false]
    rw [pickForwardedForByHops]
    by_cases hnil : value = []
    · rw [if_pos (.inl hnil), hempty hnil]
      rfl
    · rw [if_neg (by simp [hnil, hone]), pickByHops_eq hlength helement]
  | forwarded =>
    rw [HopList.value] at hvalue
    rw [resolveForwardedClientIp, HopList.source]
    simp only [Option.any_none, Bool.false_eq_true, if_false, ne_eq, reduceCtorEq,
      not_false_eq_true, if_true]
    rw [readForwardedClientIp, if_neg hone, hvalue, parseForwardedHeader]
    by_cases hnil : value = []
    · rw [if_pos hnil, hempty hnil, pickByHops, if_pos (by simp; omega)]
      rfl
    · have hslot : ((splitOn comma value).map slotOf)[((splitOn comma value).map slotOf).length -
          hops]? = some (slotOf element) := by
        rw [List.getElem?_map, List.length_map, helement]
        rfl
      rw [if_neg hnil, pickByHops_eq (by rwa [List.length_map]) hslot, ifAddress_slotOf]

theorem splitOn_prepend (text value : JsString) :
    splitOn comma (text ++ comma :: value) = splitOn comma text ++ splitOn comma value :=
  List.splitOn_append_cons_self text value

theorem getElem?_prepend {front parts : List JsString} (hlength : hops ≤ parts.length) :
    (front ++ parts)[(front ++ parts).length - hops]? = parts[parts.length - hops]? := by
  rw [List.length_append, List.getElem?_append_right (by omega)]
  congr 1
  omega

/-! ## The result -/

def PeerListed (request : Request) (trustedPeers : List IpMatcher) : Prop :=
  ∃ peer parsed, request.remoteAddress = some peer ∧ parseIp peer = some parsed ∧
    ∃ m ∈ trustedPeers, matchesMatcher parsed m = true

theorem isTrustedPeer_iff (request : Request) (trustedPeers : List IpMatcher) :
    isTrustedPeer request trustedPeers = true ↔ PeerListed request trustedPeers := by
  have hempty : parseIp [] = none := rfl
  rw [isTrustedPeer, PeerListed]
  cases request.remoteAddress with
  | none => simp
  | some peer =>
    dsimp only
    by_cases hnil : peer = []
    · simp [hnil, hempty]
    · rw [if_neg hnil]
      cases hparse : parseIp peer with
      | none => simp [hparse]
      | some parsed => simp [hparse]

theorem resolve_trusted (request : Request) (hops : ℕ) (trustedPeers : Option (List IpMatcher))
    (source : ForwardedHeaderSource) :
    resolveForwardedClientIp request hops trustedPeers source =
      if trustedPeers.any fun peers => !isTrustedPeer request peers then none
      else resolveForwardedClientIp request hops none source := by
  rw [resolveForwardedClientIp]
  split
  · rfl
  · rw [resolveForwardedClientIp]
    rfl

/-- **Text in front of a header does not change the client's address.** Where the header has an
element for each hop, the selected one alone decides: it gives the address it names, or none; and
with trusted peers a request from any other peer has none. -/
theorem spoof_resistant (list : HopList) (request : Request) (hops : ℕ)
    (trustedPeers : Option (List IpMatcher)) :
    (∀ (value text : JsString), list.value request = some value → 1 ≤ hops →
      hops ≤ (splitOn comma value).length →
        resolveForwardedClientIp (list.withValue request (text ++ comma :: value)) hops trustedPeers
            list.source =
          resolveForwardedClientIp request hops trustedPeers list.source) ∧
    (∀ (value element : JsString), list.value request = some value → 1 ≤ hops →
      hops ≤ (splitOn comma value).length →
      (splitOn comma value)[(splitOn comma value).length - hops]? = some element →
        (list.named element = none →
          resolveForwardedClientIp request hops trustedPeers list.source = none) ∧
        (resolveForwardedClientIp request hops trustedPeers list.source = none ∨
          resolveForwardedClientIp request hops trustedPeers list.source = list.named element)) ∧
    ∀ peers, trustedPeers = some peers → ¬ PeerListed request peers →
      ∀ source, resolveForwardedClientIp request hops trustedPeers source = none := by
  refine ⟨?_, ?_, ?_⟩
  · intro value text hvalue hhops hlength
    have hlt : (splitOn comma value).length - hops < (splitOn comma value).length := by omega
    have helement := List.getElem?_eq_getElem hlt
    have hvalue' : list.value (list.withValue request (text ++ comma :: value)) =
        some (text ++ comma :: value) := by
      cases list <;> rfl
    have hpeer : ∀ peers, isTrustedPeer (list.withValue request (text ++ comma :: value)) peers =
        isTrustedPeer request peers := by
      intro peers
      cases list <;> rfl
    have hlength' : hops ≤ (splitOn comma (text ++ comma :: value)).length := by
      rw [splitOn_prepend, List.length_append]
      omega
    have helement' := @getElem?_prepend hops (splitOn comma text) _ hlength
    rw [← splitOn_prepend, helement] at helement'
    rw [resolve_trusted, resolve_trusted request, readHops_eq list hvalue hhops hlength helement,
      readHops_eq list hvalue' hhops hlength' helement']
    simp only [hpeer]
  · intro value element hvalue hhops hlength helement
    rw [resolve_trusted, readHops_eq list hvalue hhops hlength helement]
    constructor
    · intro hnone
      rw [hnone, ite_self]
    · split
      · exact .inl rfl
      · exact .inr rfl
  · rintro peers rfl hpeer source
    have htrusted : isTrustedPeer request peers = false := by
      rw [← Bool.not_eq_true, isTrustedPeer_iff]
      exact hpeer
    rw [resolve_trusted, if_pos (by simp [htrusted])]

end Daloy.Proxy
