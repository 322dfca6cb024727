import Daloy.Foundations.Unicode

/-! # Percent-decoding of URI components

`decodeURIComponent` as the language standard defines it: every unit that is not a percent sign
stands for itself, a run of escapes stands for one scalar value in UTF-8, and anything else is a
`URIError`.
-/

namespace Daloy.Unicode
set_option autoImplicit false

def percentSign : UInt16 := 0x25

def hexDigit (u : UInt16) : Option ℕ :=
  if 0x30 ≤ u.toNat ∧ u.toNat ≤ 0x39 then some (u.toNat - 0x30)
  else if 0x41 ≤ u.toNat ∧ u.toNat ≤ 0x46 then some (u.toNat - 0x41 + 10)
  else if 0x61 ≤ u.toNat ∧ u.toNat ≤ 0x66 then some (u.toNat - 0x61 + 10)
  else none

/-- The byte of the escape `%hl`. -/
def escapedByte (h l : UInt16) : Option UInt8 := do
  let high ← hexDigit h
  let low ← hexDigit l
  return UInt8.ofNat (high * 16 + low)

/-- How many bytes a multi-byte sequence has, by the leading ones of its first byte. -/
def sequenceLength (b : UInt8) : Option ℕ :=
  if b.toNat < 0xC0 then none
  else if b.toNat < 0xE0 then some 2
  else if b.toNat < 0xF0 then some 3
  else if b.toNat < 0xF8 then some 4
  else none

def decodeEscapes : List UInt8 → ℕ → JsString → Option JsString
  | _, owed, [] => if owed = 0 then some [] else none
  | octets, owed, u :: rest =>
    if u = percentSign then
      match rest with
      | h :: l :: rest =>
        match escapedByte h l with
        | none => none
        | some b =>
          if owed = 0 then
            if b.toNat < 0x80 then (decodeEscapes [] 0 rest).map (UInt16.ofNat b.toNat :: ·)
            else match sequenceLength b with
              | none => none
              | some n => decodeEscapes [b] (n - 1) rest
          else if owed = 1 then
            match decodeUtf8 (octets ++ [b]) with
            | some [c] => (decodeEscapes [] 0 rest).map (utf16Char c ++ ·)
            | _ => none
          else decodeEscapes (octets ++ [b]) (owed - 1) rest
      | _ => none
    else if owed = 0 then (decodeEscapes [] 0 rest).map (u :: ·)
    else none

/-- `decodeURIComponent(s)`, `none` for its `URIError`. -/
def decodeURIComponent (s : JsString) : Option JsString := decodeEscapes [] 0 s

theorem decodeEscapes_plain {u : UInt16} (h : u ≠ percentSign) (s : JsString) :
    decodeEscapes [] 0 (u :: s) = (decodeEscapes [] 0 s).map (u :: ·) := by
  rcases s with _ | ⟨v, _ | ⟨w, s⟩⟩ <;> simp [decodeEscapes, h]

theorem decodeURIComponent_of_not_mem {s : JsString} (h : percentSign ∉ s) :
    decodeURIComponent s = some s := by
  rw [decodeURIComponent]
  induction s with
  | nil => rfl
  | cons u s ih =>
    rw [List.mem_cons, not_or] at h
    rw [decodeEscapes_plain (Ne.symm h.1), ih h.2]
    rfl

example : decodeURIComponent (js "a%2Fb%C3%a9") = some (js "a/bé") := by decide +kernel
example : decodeURIComponent (js "%C3%28") = none := by decide +kernel

end Daloy.Unicode
