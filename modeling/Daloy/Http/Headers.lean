import Daloy.Foundations.Fallible
import Daloy.Foundations.JsMap
import Daloy.Foundations.Text

/-! # Header fields

What the middleware relies on of `Headers`: names are tokens, kept in lower case; values are bytes
without NUL, CR or LF.

* `Headers.get`, `Headers.has`: they throw on what is no name.
* `splitOn`: the pieces of a list of values.
-/

namespace Daloy.Http
set_option autoImplicit false

open Daloy.Unicode Daloy.Text

def comma : UInt16 := 0x2C
def equalsSign : UInt16 := 0x3D
def colon : UInt16 := 0x3A
def space : UInt16 := 0x20
def lineFeed : UInt16 := 0x0A

/-- The value of a header field: bytes, none of them NUL, CR or LF. -/
structure HeaderValue where
  units : JsString
  valid : ∀ u ∈ units, u.toNat < 0x100 ∧ u ≠ 0x00 ∧ u ≠ 0x0A ∧ u ≠ 0x0D

/-- `tchar`. -/
def isTokenUnit (u : UInt16) : Bool :=
  (0x30 ≤ u.toNat && u.toNat ≤ 0x39) || (0x41 ≤ u.toNat && u.toNat ≤ 0x5A) ||
    (0x61 ≤ u.toNat && u.toNat ≤ 0x7A) || u ∈ js "!#$%&'*+-.^_|~" || u == 0x60

def IsToken (s : JsString) : Prop := s ≠ [] ∧ ∀ u ∈ s, isTokenUnit u = true

instance (s : JsString) : Decidable (IsToken s) := inferInstanceAs (Decidable (_ ∧ _))

/-- `toUpperCase` on ASCII. -/
def toUpperCase (s : JsString) : JsString :=
  s.map fun u => if 0x61 ≤ u.toNat ∧ u.toNat ≤ 0x7A then u - 0x20 else u

/-- `toLowerCase` on the bytes of a header field. -/
def toLowerCase (s : JsString) : JsString :=
  s.map fun u => if (0x41 ≤ u.toNat ∧ u.toNat ≤ 0x5A) ∨
    (0xC0 ≤ u.toNat ∧ u.toNat ≤ 0xDE ∧ u ≠ 0xD7) then u + 0x20 else u

def splitOn (sep : UInt16) (s : JsString) : List JsString := List.splitOn sep s

inductive HeaderError
  | invalidName
  deriving DecidableEq

/-- The fields of a request, under their names in lower case. -/
structure Headers where
  fields : JsMap JsString HeaderValue := ∅

def Headers.get (headers : Headers) (name : JsString) : Except HeaderError (Option JsString) :=
  if IsToken name then .ok ((headers.fields.get? (toLowerCase name)).map HeaderValue.units)
  else .error .invalidName

def Headers.value (headers : Headers) (name : JsString) : JsString :=
  ((headers.fields.get? (toLowerCase name)).map HeaderValue.units).getD []

/-- `headers.has(name)`, for a name in lower case. -/
def Headers.has (headers : Headers) (name : JsString) : Bool :=
  (headers.fields.get? name).isSome

theorem Headers.get_eq_ok {headers : Headers} {name : JsString} {value : Option JsString}
    (h : headers.get name = .ok value) : value.getD [] = headers.value name := by
  rw [Headers.get] at h
  split at h
  · rw [← Except.ok.inj h]
    rfl
  · simp at h

theorem Headers.value_valid (headers : Headers) (name : JsString) :
    ∀ u ∈ headers.value name, u ≠ 0x00 ∧ u ≠ lineFeed := by
  rw [Headers.value]
  cases headers.fields.get? (toLowerCase name) with
  | none => simp
  | some value =>
    intro u hu
    obtain ⟨-, hnul, hlf, -⟩ := value.valid u hu
    exact ⟨hnul, hlf⟩

end Daloy.Http
