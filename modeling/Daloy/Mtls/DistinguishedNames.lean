import Daloy.Foundations.Text
import Daloy.Foundations.UriComponent

/-! # Distinguished names

`cnFromDN` of `src/mtls.ts`: one scan over a distinguished name, with the spellings it reads.

* `scanValue`: the loop over a value; `avaLoop`: the loop over the assertions.
-/

namespace Daloy.Mtls
set_option autoImplicit false

open Daloy.Unicode Daloy.Text

def backslash : UInt16 := 0x5C
def quote : UInt16 := 0x22
def space : UInt16 := 0x20
def equalsSign : UInt16 := 0x3D
def numberSign : UInt16 := 0x23

def isSeparator (u : UInt16) : Bool := u ∈ js ",;+"

/-! ## The scan -/

def isHexDigit (c : UInt16) : Bool := (hexDigit c).isSome

def isSpecial (u : UInt16) : Bool := u ∈ js ",+;\"\\<>=# "

/-- `toUpperCase` on one unit, as far as the common names are concerned: the dotless `ı` is the one
unit behind ASCII with the upper case of one of their letters. -/
def upperUnit (u : UInt16) : UInt16 :=
  if 0x61 ≤ u.toNat ∧ u.toNat ≤ 0x7A then u - 0x20 else if u = 0x131 then 0x49 else u

def toUpperCase (s : JsString) : JsString := s.map upperUnit

def commonNameTypes : List JsString := [js "CN", js "2.5.4.3", js "OID.2.5.4.3"]

def typeOf (front : JsString) : JsString := toUpperCase (trim front)

def isMalformedType (type : JsString) : Bool := type = [] || type.any fun u => u ∈ js "\\\",+;"

/-- The bytes in progress decoded behind a value, `none` where they are no UTF-8. -/
def flush (value : JsString) (bytes : List UInt8) : Option JsString :=
  if bytes = [] then some value else (decodeText bytes).map (value ++ ·)

/-- The variables of the loop over a value, where it stops. -/
structure Scanned where
  value : JsString
  bytes : List UInt8
  keep : ℕ
  closed : Bool
  rest : JsString

def scanValue (quoted : Bool) : JsString → List UInt8 → ℕ → JsString → Option Scanned
  | value, bytes, keep, [] => some { value, bytes, keep, closed := false, rest := [] }
  | value, bytes, keep, ch :: rest =>
    if ch = backslash then
      match rest with
      | [] => none
      | next :: rest =>
        if isHexDigit next then
          match rest with
          | [] => none
          | low :: rest =>
            match escapedByte next low with
            | none => none
            | some b => scanValue quoted value (bytes ++ [b]) keep rest
        else
          match flush value bytes with
          | none => none
          | some value =>
            if isSpecial next then
              scanValue quoted (value ++ [next]) [] (value ++ [next]).length rest
            else none
    else
      match flush value bytes with
      | none => none
      | some settled =>
        let keep := if bytes = [] then keep else settled.length
        if quoted then
          if ch = quote then some { value := settled, bytes := [], keep, closed := true, rest }
          else scanValue quoted (settled ++ [ch]) [] keep rest
        else if isSeparator ch then
          some { value := settled, bytes := [], keep, closed := false, rest := ch :: rest }
        else if ch = quote then none
        else scanValue quoted (settled ++ [ch]) [] keep rest

theorem scanValue_hex {quoted : Bool} {next low : UInt16} {b : UInt8}
    (h : escapedByte next low = some b) (value : JsString) (bytes : List UInt8) (keep : ℕ)
    (rest : JsString) : scanValue quoted value bytes keep (backslash :: next :: low :: rest) =
      scanValue quoted value (bytes ++ [b]) keep rest := by
  have hhex : isHexDigit next = true := by
    rw [isHexDigit]
    cases hdigit : hexDigit next with
    | none => simp [escapedByte, hdigit] at h
    | some n => rfl
  rw [scanValue.eq_def]
  dsimp only
  rw [if_pos rfl, if_pos hhex, h]

theorem scanValue_special {quoted : Bool} {next : UInt16} (hhex : isHexDigit next = false)
    (h : isSpecial next = true) {value settled : JsString} {bytes : List UInt8}
    (hflush : flush value bytes = some settled) (keep : ℕ) (rest : JsString) :
    scanValue quoted value bytes keep (backslash :: next :: rest) =
      scanValue quoted (settled ++ [next]) [] (settled ++ [next]).length rest := by
  rw [scanValue.eq_def]
  dsimp only
  rw [if_pos rfl, if_neg (by simp [hhex]), hflush]
  dsimp only
  rw [if_pos h]

theorem scanValue_other {quoted : Bool} {ch : UInt16} (h : ch ≠ backslash)
    {value settled : JsString} {bytes : List UInt8} (hflush : flush value bytes = some settled)
    (keep : ℕ) (rest : JsString) : scanValue quoted value bytes keep (ch :: rest) =
      let keep := if bytes = [] then keep else settled.length
      if quoted then
        if ch = quote then some { value := settled, bytes := [], keep, closed := true, rest }
        else scanValue quoted (settled ++ [ch]) [] keep rest
      else if isSeparator ch then
        some { value := settled, bytes := [], keep, closed := false, rest := ch :: rest }
      else if ch = quote then none
      else scanValue quoted (settled ++ [ch]) [] keep rest := by
  rw [scanValue.eq_def]
  dsimp only
  rw [if_neg h, hflush]

def trimEnd (keep : ℕ) (value : JsString) : JsString :=
  value.take keep ++ (value.drop keep).rdropWhile (· == space)

/-- What follows the equals sign of an assertion: the value, and what is left from its separator
on. -/
def readValue (isCN : Bool) (text : JsString) : Option (JsString × JsString) :=
  let text := text.dropWhile (· == space)
  let quoted := text.head? = some quote
  if ¬ quoted ∧ text.head? = some numberSign ∧ isCN = true then none
  else do
    let scanned ← scanValue quoted [] [] 0 (if quoted then text.tail else text)
    let value ← flush scanned.value scanned.bytes
    let keep := if scanned.bytes = [] then scanned.keep else value.length
    if quoted then
      let rest := scanned.rest.dropWhile (· == space)
      if scanned.closed ∧ rest.head?.all isSeparator then some (value, rest) else none
    else some (trimEnd keep value, scanned.rest)

def avaLoop : ℕ → Option JsString → JsString → Option JsString
  | 0, _, _ => none
  | fuel + 1, cn, text =>
    match text.dropWhile (· ≠ equalsSign) with
    | [] => none
    | _ :: behind =>
      let type := typeOf (text.takeWhile (· ≠ equalsSign))
      if isMalformedType type then none
      else
        let isCN := commonNameTypes.contains type
        match readValue isCN behind with
        | none => none
        | some (value, rest) =>
          if isCN ∧ cn.isSome then none
          else
            let cn := if isCN then some value else cn
            match rest with
            | [] => cn
            | [_] => none
            | _ :: text => avaLoop fuel cn text

/-- `cnFromDN(dn)`; an assertion takes a character at least. -/
def cnFromDN (dn : Option JsString) : Option JsString :=
  match dn with
  | none => none
  | some dn => avaLoop (dn.length + 1) none dn

/-! ## The scan comes to an end -/

def matchesAllowedCN (cn : Option JsString) (allowed : List JsString) : Bool :=
  match cn with
  | none => false
  | some cn => cn ≠ [] && allowed.contains cn

end Daloy.Mtls
