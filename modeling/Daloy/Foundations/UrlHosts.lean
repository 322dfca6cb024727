import Daloy.Foundations.Text
import Daloy.Foundations.UrlReferences

/-! # Hosts and origins of URLs

Nothing here mentions a program. What the URL standard makes of the authority of a URL of the
schemes `http` and `https`. What Unicode says about a domain and the literals of IPv6 come in from
outside.

* `parseHost`: a domain, or the address that a domain stands for which ends in a number.
* `authorityOf`: the credentials, the host and the port of a text.
* `parseHost_eq_self`: the hosts that are parsed to themselves.
-/

namespace Daloy.UrlStandard
set_option autoImplicit false

open Daloy.Json Daloy.Unicode

/-! ## Addresses -/

def numberPart (radix : ℕ) (digits : JsString) : Option ℕ :=
  digits.foldlM (fun n u => ((hexDigit u).filter (· < radix)).map fun d => n * radix + d) 0

def ipv4Number (part : JsString) : Option ℕ :=
  if part = [] then none
  else if lowerAscii (part.take 2) = js "0x" then numberPart 16 (part.drop 2)
  else if 2 ≤ part.length ∧ part.head? = some 0x30 then numberPart 8 (part.drop 1)
  else numberPart 10 part

def domainParts (domain : JsString) : List JsString :=
  let parts := List.splitOn fullStop domain
  if 1 < parts.length ∧ parts.getLast? = some [] then parts.dropLast else parts

def endsInNumber (domain : JsString) : Bool :=
  (domainParts domain).getLast?.any fun last =>
    (last ≠ [] && last.all isDigit) || (ipv4Number last).isSome

/-- The parts in front of the last one are bytes, and the last one fills what is left. -/
def ipv4Address (numbers : List ℕ) : Option ℕ :=
  let last := numbers.getLastD 0
  if numbers.dropLast.any (255 < ·) ∨ 256 ^ (5 - numbers.length) ≤ last then none
  else some (numbers.dropLast.zipIdx.foldl (fun n p => n + p.1 * 256 ^ (3 - p.2)) last)

def ipv4Value (domain : JsString) : Option ℕ :=
  if 4 < (domainParts domain).length then none
  else ((domainParts domain).mapM ipv4Number).bind ipv4Address

def quadText (a b c d : ℕ) : JsString :=
  NumberText.write a ++ fullStop :: (NumberText.write b ++ fullStop ::
    (NumberText.write c ++ fullStop :: NumberText.write d))

def ipv4Text (address : ℕ) : JsString :=
  quadText (address / 256 ^ 3 % 256) (address / 256 ^ 2 % 256) (address / 256 % 256) (address % 256)

/-! ## Hosts -/

def leftBracket : UInt16 := 0x5B
def rightBracket : UInt16 := 0x5D
def atSign : UInt16 := 0x40

def isForbiddenDomainUnit (u : UInt16) : Bool :=
  u.toNat ≤ 0x20 || u = 0x7F || u ∈ js "#/:<>?@[\\]^|%"

def hasPunycode (domain : JsString) : Bool :=
  (List.splitOn fullStop domain).any fun label => lowerAscii (label.take 4) = js "xn--"

/-- What is not spelled out here: what percent-decoding and the mapping of domains to ASCII make of
a host, the text of an IPv6 literal, and the URLs of other schemes. An ASCII domain without percent
signs and Punycode is put in lower case. -/
class HostProcessing where
  asciiDomain : JsString → Option JsString
  parseIPv6 : JsString → Option JsString
  parseOther : JsString → Option Url
  asciiDomain_ascii : ∀ s : JsString, (∀ u ∈ s, u.toNat < 0x80 ∧ u ≠ percentSign) →
    hasPunycode s = false → asciiDomain s = some (lowerAscii s)

section Hosts

variable [HostProcessing]

open HostProcessing

def parseDomain (domain : JsString) : Option JsString :=
  if domain = [] ∨ domain.any isForbiddenDomainUnit then none
  else if endsInNumber domain then (ipv4Value domain).map ipv4Text
  else some domain

/-- The host parser; `none` for a failure. -/
def parseHost (host : JsString) : Option JsString :=
  if host.head? = some leftBracket then
    if host.getLast? = some rightBracket then
      (parseIPv6 host.tail.dropLast).map fun text => leftBracket :: text ++ [rightBracket]
    else none
  else (asciiDomain host).bind parseDomain

/-! ## Authorities -/

def keptInUserinfo (u : UInt16) : Bool := keptInPath u && u ∉ js "/:;=@[\\]|"

def hostText : Bool → JsString → JsString
  | _, [] => []
  | inside, u :: s =>
    if u = colonSign ∧ inside = false then []
    else
      u :: hostText (if u = leftBracket then true else if u = rightBracket then false else inside) s

def defaultPort (protocol : JsString) : ℕ := if protocol = js "https:" then 443 else 80

def parsePort (protocol digits : JsString) : Option JsString :=
  if digits.all isDigit = false then none
  else if digits = [] then some []
  else if 65535 < decimal digits then none
  else if decimal digits = defaultPort protocol then some []
  else some (NumberText.write (decimal digits))

def authorityOf (protocol s : JsString) : Option Authority :=
  let credentials := (s.rdropWhile (· ≠ atSign)).dropLast
  let hostPort := s.rtakeWhile (· ≠ atSign)
  let host := hostText false hostPort
  if host = [] then none
  else do
    let hostname ← parseHost host
    let port ← parsePort protocol ((hostPort.drop host.length).drop 1)
    return {
      username := encodeWith keptInUserinfo (credentials.takeWhile (· ≠ colonSign))
      password := encodeWith keptInUserinfo ((credentials.dropWhile (· ≠ colonSign)).drop 1)
      hostname, port }

instance : UrlParser where
  parseAuthority := authorityOf
  parseOther := parseOther

end Hosts

def Url.originText (url : Url) : JsString :=
  url.protocol ++ js "//" ++ url.authority.hostname ++
    if url.authority.port = [] then [] else colonSign :: url.authority.port

/-! ## Hosts that stay as they are -/

def IsQuad (host : JsString) : Prop :=
  ∃ a b c d : ℕ, a < 256 ∧ b < 256 ∧ c < 256 ∧ d < 256 ∧ host = quadText a b c d

theorem ipv4Number_write {n : ℕ} (h : n < 256) : ipv4Number (NumberText.write n) = some n := by
  have hall : ∀ k : Fin 256, ipv4Number (NumberText.write k.val) = some k.val := by decide +kernel
  exact hall ⟨n, h⟩

theorem not_stop_write (n : ℕ) : ∀ u ∈ (NumberText.write n : JsString), u ≠ fullStop := by
  rintro u hu rfl
  exact absurd (Text.write_digits n _ hu) (by decide)

theorem splitOn_quadText (a b c d : ℕ) : List.splitOn fullStop (quadText a b c d) =
    [NumberText.write a, NumberText.write b, NumberText.write c, NumberText.write d] := by
  have hplain (n : ℕ) : ∀ u ∈ (NumberText.write n : JsString), (u == fullStop) = false := by
    intro u hu
    simpa using not_stop_write n u hu
  have hsplit (n : ℕ) (rest : JsString) :
      List.splitOn fullStop (NumberText.write n ++ fullStop :: rest) =
        NumberText.write n :: List.splitOn fullStop rest :=
    List.splitOnP_append_cons_of_forall_mem (hplain n) _ (by simp) rest
  rw [quadText, hsplit, hsplit, hsplit]
  exact congrArg _ (congrArg _ (congrArg _ (List.splitOnP_eq_singleton (hplain d))))

theorem domainParts_quadText (a b c d : ℕ) : domainParts (quadText a b c d) =
    [NumberText.write a, NumberText.write b, NumberText.write c, NumberText.write d] := by
  have hne := NumberText.write_ne_nil d
  rw [domainParts, splitOn_quadText]
  simp [hne]

theorem ipv4Value_quadText {a b c d : ℕ} (ha : a < 256) (hb : b < 256) (hc : c < 256)
    (hd : d < 256) :
    (ipv4Value (quadText a b c d)).map ipv4Text = some (quadText a b c d) := by
  have haddress : ipv4Address [a, b, c, d] = some (d + a * 256 ^ 3 + b * 256 ^ 2 + c * 256) := by
    have hbytes : ¬ ([a, b, c, d].dropLast.any (255 < ·) ∨
        256 ^ (5 - [a, b, c, d].length) ≤ [a, b, c, d].getLastD 0) := by
      simp
      omega
    rw [ipv4Address, if_neg hbytes]
    rfl
  have hbytes : ipv4Text (d + a * 256 ^ 3 + b * 256 ^ 2 + c * 256) = quadText a b c d := by
    have h₀ : (d + a * 256 ^ 3 + b * 256 ^ 2 + c * 256) / 256 ^ 3 % 256 = a := by omega
    have h₁ : (d + a * 256 ^ 3 + b * 256 ^ 2 + c * 256) / 256 ^ 2 % 256 = b := by omega
    have h₂ : (d + a * 256 ^ 3 + b * 256 ^ 2 + c * 256) / 256 % 256 = c := by omega
    have h₃ : (d + a * 256 ^ 3 + b * 256 ^ 2 + c * 256) % 256 = d := by omega
    rw [ipv4Text, h₀, h₁, h₂, h₃]
  have hparts : [NumberText.write a, NumberText.write b, NumberText.write c,
      NumberText.write d].mapM ipv4Number = some [a, b, c, d] := by
    simp [ipv4Number_write ha, ipv4Number_write hb, ipv4Number_write hc, ipv4Number_write hd]
  rw [ipv4Value, domainParts_quadText, if_neg (by simp), hparts, Option.bind_some, haddress,
    Option.map_some, hbytes]

theorem isQuad_ipv4Text (address : ℕ) : IsQuad (ipv4Text address) :=
  ⟨_, _, _, _, Nat.mod_lt _ (by decide), Nat.mod_lt _ (by decide), Nat.mod_lt _ (by decide),
    Nat.mod_lt _ (by decide), rfl⟩

theorem quadText_units (a b c d : ℕ) :
    ∀ u ∈ quadText a b c d, isDigit u = true ∨ u = fullStop := by
  have hdigit {n : ℕ} {u : UInt16} (h : u ∈ (NumberText.write n : JsString)) :
      isDigit u = true ∨ u = fullStop := .inl (Text.write_digits n u h)
  intro u hu
  simp only [quadText, List.mem_append, List.mem_cons] at hu
  obtain h | h | h | h | h | h | h := hu
  · exact hdigit h
  · exact .inr h
  · exact hdigit h
  · exact .inr h
  · exact hdigit h
  · exact .inr h
  · exact hdigit h

theorem digit_or_stop {u : UInt16} (h : isDigit u = true ∨ u = fullStop) :
    u.toNat < 0x40 ∧ u ≠ percentSign ∧ isForbiddenDomainUnit u = false := by
  have hlt : u.toNat < 0x40 := by
    obtain h | rfl := h
    · simp only [isDigit, Bool.and_eq_true, decide_eq_true_eq] at h
      omega
    · decide
  have hall : ∀ k : Fin 0x40, isDigit (UInt16.ofNat k.val) = true ∨ UInt16.ofNat k.val = fullStop →
      UInt16.ofNat k.val ≠ percentSign ∧ isForbiddenDomainUnit (UInt16.ofNat k.val) = false := by
    decide
  have hu := hall ⟨u.toNat, hlt⟩
  rw [UInt16.ofNat_toNat] at hu
  exact ⟨hlt, hu h⟩

/-- **The domains that stay as they are**: those without a unit that is forbidden, which end in a
number only as an address in four decimal numbers. -/
theorem parseDomain_eq_self {domain : JsString} : parseDomain domain = some domain ↔
    domain ≠ [] ∧ (∀ u ∈ domain, isForbiddenDomainUnit u = false) ∧
      (endsInNumber domain = true → IsQuad domain) := by
  rw [parseDomain]
  constructor
  · intro h
    split at h
    · cases h
    rename_i hplain
    rw [not_or] at hplain
    refine ⟨hplain.1, fun u hu => ?_, fun hnumber => ?_⟩
    · have hall := hplain.2
      simp only [List.any_eq_true, not_exists, not_and, Bool.not_eq_true] at hall
      exact hall u hu
    · rw [if_pos hnumber, Option.map_eq_some_iff] at h
      obtain ⟨address, -, htext⟩ := h
      exact htext ▸ isQuad_ipv4Text address
  · intro h
    obtain ⟨hne, hplain, hquad⟩ := h
    have hok : ¬ (domain = [] ∨ domain.any isForbiddenDomainUnit = true) := by
      rw [not_or, List.any_eq_true]
      refine ⟨hne, fun hbad => ?_⟩
      obtain ⟨u, hu, hforbidden⟩ := hbad
      rw [hplain u hu] at hforbidden
      cases hforbidden
    rw [if_neg hok]
    cases hnumber : endsInNumber domain with
    | false => rfl
    | true =>
      obtain ⟨a, b, c, d, ha, hb, hc, hd, rfl⟩ := hquad hnumber
      exact ipv4Value_quadText ha hb hc hd

theorem lowerAscii_eq_self {s : JsString}
    (h : ∀ u ∈ s, ¬ (0x41 ≤ u.toNat ∧ u.toNat ≤ 0x5A)) : lowerAscii s = s := by
  rw [lowerAscii]
  exact (List.map_congr_left fun u hu => if_neg (h u hu)).trans (List.map_id s)

section Fixed

variable [HostProcessing]

open HostProcessing

theorem asciiDomain_quad {host : JsString} (h : IsQuad host) : asciiDomain host = some host := by
  obtain ⟨a, b, c, d, ha, hb, hc, hd, rfl⟩ := h
  have hunits {u : UInt16} (hu : u ∈ quadText a b c d) :=
    digit_or_stop (quadText_units a b c d u hu)
  have hlower : lowerAscii (quadText a b c d) = quadText a b c d :=
    lowerAscii_eq_self fun u hu => by
      have hlt := (hunits hu).1
      omega
  have hlabel : ∀ k : Fin 256, ¬ lowerAscii ((NumberText.write k.val : JsString).take 4) =
      js "xn--" := by
    decide +kernel
  have hascii : ∀ u ∈ quadText a b c d, u.toNat < 0x80 ∧ u ≠ percentSign := by
    intro u hu
    have hlt := (hunits hu).1
    exact ⟨by omega, (hunits hu).2.1⟩
  have hplain : hasPunycode (quadText a b c d) = false := by
    rw [hasPunycode, splitOn_quadText]
    simp [hlabel ⟨a, ha⟩, hlabel ⟨b, hb⟩, hlabel ⟨c, hc⟩, hlabel ⟨d, hd⟩]
  rw [asciiDomain_ascii _ hascii hplain, hlower]

theorem parseHost_eq_self {host : JsString} (h : host.head? ≠ some leftBracket) :
    parseHost host = some host ↔ asciiDomain host = some host ∧ parseDomain host = some host := by
  rw [parseHost, if_neg h, Option.bind_eq_some_iff]
  constructor
  · intro hparse
    obtain ⟨domain, hdomain, hself⟩ := hparse
    have hsame : domain = host := by
      unfold parseDomain at hself
      split at hself
      · cases hself
      split at hself
      · rw [Option.map_eq_some_iff] at hself
        obtain ⟨address, -, htext⟩ := hself
        have hquad := asciiDomain_quad (htext ▸ isQuad_ipv4Text address)
        exact Option.some.inj (hdomain.symm.trans hquad)
      · exact Option.some.inj hself
    rw [hsame] at hdomain hself
    exact ⟨hdomain, hself⟩
  · intro hboth
    exact ⟨host, hboth⟩

end Fixed

end Daloy.UrlStandard
