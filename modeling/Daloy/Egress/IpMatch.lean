import Daloy.Foundations.Text
import Daloy.Foundations.UriComponent

/-! # Addresses and ranges

`parseIp`, `compileCidrMatcher` and `matchesMatcher` of `src/ip-match.ts`.

* An address is its bytes, as many as its family has; a range of addresses has no bits set behind
  its prefix.
-/

namespace Daloy.Egress
set_option autoImplicit false

open Daloy.Unicode Daloy.Text Daloy.Json

def dot : UInt16 := 0x2E
def colon : UInt16 := 0x3A
def slash : UInt16 := 0x2F

/-! ## Addresses -/

inductive Family
  | v4
  | v6
  deriving DecidableEq

def Family.size : Family → ℕ
  | .v4 => 4
  | .v6 => 16

structure ParsedIp where
  family : Family
  bytes : List UInt8
  sized : bytes.length = family.size
  deriving DecidableEq

def octet (part : JsString) : Option UInt8 :=
  if part.length ∈ [1, 2, 3] ∧ part.all isDigit ∧ decimal part ≤ 255 then
    some (UInt8.ofNat (decimal part))
  else none

def parseIPv4 (input : JsString) : Option ParsedIp := do
  let bytes ← (List.splitOn dot input).mapM octet
  if h : bytes.length = Family.v4.size then some ⟨.v4, bytes, h⟩ else none

/-- `n.toString(16)`, for a byte pair. -/
def hexText (n : ℕ) : JsString := js (String.ofList (Nat.toDigits 16 n))

def hexGroup (group : JsString) : Option (List UInt8) := do
  let digits ← group.mapM hexDigit
  if digits.length ∈ [1, 2, 3, 4] then
    let n := digits.foldl (fun n d => 16 * n + d) 0
    some [UInt8.ofNat (n / 256), UInt8.ofNat (n % 256)]
  else none

def withoutDottedTail (input : JsString) : Option JsString :=
  let tail := input.rtakeWhile (· ≠ colon)
  if dot ∈ tail then do
    let v4 ← parseIPv4 tail
    let pair (i : ℕ) : ℕ := (v4.bytes.getD i 0).toNat * 256 + (v4.bytes.getD (i + 1) 0).toNat
    some (input.rdropWhile (· ≠ colon) ++ hexText (pair 0) ++ [colon] ++ hexText (pair 2))
  else some input

/-- `s.split("::")`. -/
def splitDoubleColon : JsString → List JsString
  | [] => [[]]
  | [u] => [[u]]
  | u :: v :: s =>
    if u = colon ∧ v = colon then [] :: splitDoubleColon s
    else match splitDoubleColon (v :: s) with
      | [] => [[u]]
      | piece :: pieces => (u :: piece) :: pieces

def groupsOf (side : JsString) : List JsString := if side = [] then [] else List.splitOn colon side

def parseIPv6 (input : JsString) : Option ParsedIp := do
  let working ← withoutDottedTail input
  let parts := splitDoubleColon working
  let headGroups := groupsOf (parts.headD [])
  let tailGroups := if parts.length = 2 then groupsOf (parts.getD 1 []) else []
  let explicit := headGroups.length + tailGroups.length
  if parts.length > 2 ∨ explicit > 8 ∨ (parts.length = 1 ∧ explicit ≠ 8) then none
  else
    let missing := if parts.length = 2 then 8 - explicit else 0
    let groups ← (headGroups ++ List.replicate missing (js "0") ++ tailGroups).mapM hexGroup
    if h : groups.flatten.length = Family.v6.size then some ⟨.v6, groups.flatten, h⟩ else none

def parseIp (input : JsString) : Option ParsedIp :=
  if colon ∈ trim input then parseIPv6 (trim input) else parseIPv4 (trim input)

/-! ## Ranges -/

structure IpMatcher where
  family : Family
  prefixBits : ℕ
  bytes : List UInt8

/-- A byte with its bits behind the first `bits` cleared. -/
def leading (bits : ℕ) (b : UInt8) : UInt8 :=
  if bits ≥ 8 then b
  else if bits = 0 then 0
  else b &&& (0xFF <<< UInt8.ofNat (8 - bits))

def applyPrefixMask : List UInt8 → ℕ → List UInt8
  | [], _ => []
  | b :: bytes, bits => leading bits b :: applyPrefixMask bytes (bits - 8)

/-- The bytes of an address in a family: an IPv4-mapped address has those of the IPv4 address. -/
def normalizeFamily (ip : ParsedIp) (family : Family) : Option (List UInt8) :=
  if ip.family = family then some ip.bytes
  else if ip.family = .v6 ∧ family = .v4 ∧ ip.bytes.take 12 = List.replicate 10 0 ++ [0xFF, 0xFF] then
    some (ip.bytes.drop 12)
  else none

def agree : List UInt8 → List UInt8 → ℕ → Bool
  | b :: candidate, e :: expected, bits =>
    bits = 0 || (leading bits b == leading bits e && agree candidate expected (bits - 8))
  | _, _, _ => true

def matchesMatcher (ip : ParsedIp) (m : IpMatcher) : Bool :=
  match normalizeFamily ip m.family with
  | some candidate => agree candidate m.bytes m.prefixBits
  | none => false

inductive CidrError
  | invalidAddress (input : JsString)
  | invalidPrefix (input : JsString)

def compileCidrMatcher (input : JsString) : Except CidrError IpMatcher :=
  match parseIp (input.takeWhile (· ≠ slash)) with
  | none => .error (.invalidAddress input)
  | some parsed =>
    let total := 8 * parsed.family.size
    let compiled (bits : ℕ) : IpMatcher :=
      { family := parsed.family, prefixBits := bits, bytes := applyPrefixMask parsed.bytes bits }
    match input.dropWhile (· ≠ slash) with
    | [] => .ok (compiled total)
    | _ :: digits =>
      if digits ≠ [] ∧ digits.all isDigit ∧ decimal digits ≤ total then .ok (compiled (decimal digits))
      else .error (.invalidPrefix input)

example : (parseIp (js "::ffff:10.1.2.3")).map (·.bytes.drop 10) = some [0xFF, 0xFF, 10, 1, 2, 3] := by
  decide

end Daloy.Egress
