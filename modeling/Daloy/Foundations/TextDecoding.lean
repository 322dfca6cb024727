import Daloy.Foundations.Unicode

/-! # The decoder that does not throw

`new TextDecoder().decode(bytes)`: what is no UTF-8 is replaced, and a byte order mark at the start
is dropped.

* `lossy_of_decode`: bytes that are UTF-8 decode to their text.
* `encode_decode_iff`: the bytes that come back when the text is encoded again.
-/

namespace Daloy.Unicode
set_option autoImplicit false

/-- The decoder from a pending sequence. A byte that cannot continue it is read again as a first
one, behind a replacement character. -/
def lossyFrom : Pending → List UInt8 → List Char
  | p, [] => if p.needed = 0 then [] else [replacement]
  | p, b :: bs =>
    if p.needed ≠ 0 ∧ p.lower ≤ b.toNat ∧ b.toNat ≤ p.upper then
      if p.needed = 1 then
        Char.ofNat (p.codePoint * 0x40 + b.toNat % 0x40) :: lossyFrom .start bs
      else lossyFrom ⟨p.codePoint * 0x40 + b.toNat % 0x40, p.needed - 1, 0x80, 0xBF⟩ bs
    else
      (if p.needed = 0 then [] else [replacement]) ++
        if b.toNat ≤ 0x7F then Char.ofNat b.toNat :: lossyFrom .start bs
        else if 0xC2 ≤ b.toNat ∧ b.toNat ≤ 0xDF then
          lossyFrom ⟨b.toNat % 0x20, 1, 0x80, 0xBF⟩ bs
        else if 0xE0 ≤ b.toNat ∧ b.toNat ≤ 0xEF then
          lossyFrom ⟨b.toNat % 0x10, 2, if b.toNat = 0xE0 then 0xA0 else 0x80,
            if b.toNat = 0xED then 0x9F else 0xBF⟩ bs
        else if 0xF0 ≤ b.toNat ∧ b.toNat ≤ 0xF4 then
          lossyFrom ⟨b.toNat % 0x08, 3, if b.toNat = 0xF0 then 0x90 else 0x80,
            if b.toNat = 0xF4 then 0x8F else 0xBF⟩ bs
        else replacement :: lossyFrom .start bs

/-- `new TextDecoder().decode(bytes)`. -/
def decodeLossy (bytes : List UInt8) : JsString := utf16 (stripBom (lossyFrom .start bytes))

theorem lossyFrom_of_decodeFrom {p : Pending} {bytes : List UInt8} {m : List Char}
    (h : decodeFrom p bytes = some m) : lossyFrom p bytes = m := by
  induction bytes generalizing p m with
  | nil =>
    rw [decodeFrom] at h
    split at h
    · rename_i hneeded
      rw [lossyFrom, if_pos hneeded]
      exact Option.some.inj h
    · simp at h
  | cons b bs ih =>
    have hchar : ∀ c : Char, (decodeFrom .start bs).map (c :: ·) = some m →
        c :: lossyFrom .start bs = m := by
      intro c hc
      obtain ⟨rest, hrest, rfl⟩ := Option.map_eq_some_iff.mp hc
      rw [ih hrest]
    rw [decodeFrom] at h
    rw [lossyFrom]
    by_cases hneeded : p.needed = 0
    · rw [if_pos hneeded] at h
      rw [if_neg fun hboth => hboth.1 hneeded, if_pos hneeded, List.nil_append]
      split at h
      · rename_i hone
        rw [if_pos hone]
        exact hchar _ h
      rename_i hone
      rw [if_neg hone]
      split at h
      · rename_i htwo
        rw [if_pos htwo]
        exact ih h
      rename_i htwo
      rw [if_neg htwo]
      split at h
      · rename_i hthree
        rw [if_pos hthree]
        exact ih h
      rename_i hthree
      rw [if_neg hthree]
      split at h
      · rename_i hfour
        rw [if_pos hfour]
        exact ih h
      · simp at h
    · rw [if_neg hneeded] at h
      split at h
      · rename_i hrange
        rw [if_pos ⟨hneeded, hrange⟩]
        split at h
        · rename_i hlast
          rw [if_pos hlast]
          exact hchar _ h
        · rename_i hlast
          rw [if_neg hlast]
          exact ih h
      · simp at h

theorem lossy_of_decode {bytes : List UInt8} {m : List Char} (h : decodeUtf8 bytes = some m) :
    lossyFrom .start bytes = m := lossyFrom_of_decodeFrom h

def UnmarkedUtf8 (bytes : List UInt8) : Prop :=
  ∃ m : List Char, m.head? ≠ some byteOrderMark ∧ bytes = encodeUtf8 m

theorem encode_decode_iff (bytes : List UInt8) :
    encodeText (decodeLossy bytes) = bytes ↔ UnmarkedUtf8 bytes := by
  rw [encodeText, decodeLossy, scalars_utf16]
  constructor
  · intro h
    have hlossy := lossy_of_decode (decodeUtf8_encode (stripBom (lossyFrom .start bytes)))
    rw [h] at hlossy
    exact ⟨_, stripBom_eq_self.mp hlossy.symm, by rw [hlossy, h]⟩
  · rintro ⟨m, hm, rfl⟩
    rw [lossy_of_decode (decodeUtf8_encode m), stripBom_eq_self.mpr hm]

end Daloy.Unicode
