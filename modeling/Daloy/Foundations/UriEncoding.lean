import Daloy.Foundations.UrlStandard

/-! # `encodeURIComponent` and its inverse

Nothing here mentions a program.

* `decode_encode`: decoding a component gives back a well-formed text.
* `settled_encode`: a component is a segment that a URL keeps, unless the text is `.` or `..`.
-/

namespace Daloy.UrlStandard
set_option autoImplicit false

open Daloy.Unicode

def keptInComponent (u : UInt16) : Bool :=
  (0x61 ≤ u.toNat && u.toNat ≤ 0x7A) || (0x41 ≤ u.toNat && u.toNat ≤ 0x5A) ||
    (0x30 ≤ u.toNat && u.toNat ≤ 0x39) || u ∈ js "-_.!~*'()"

/-- `encodeURIComponent(s)`, `none` for its `URIError`. -/
def encodeURIComponent (s : JsString) : Option JsString :=
  if WellFormed s then some (encodeWith keptInComponent s) else none

/-! ## Decoding what was encoded -/

theorem escapedByte_escape (b : UInt8) :
    escapedByte (hexUnit (b.toNat / 16)) (hexUnit (b.toNat % 16)) = some b := by
  have hall : ∀ k : Fin 16, hexDigit (hexUnit k.val) = some k.val := by decide
  have hlt := b.toNat_lt
  have hhigh := hall ⟨b.toNat / 16, by omega⟩
  have hlow := hall ⟨b.toNat % 16, by omega⟩
  have hvalue : b.toNat / 16 * 16 + b.toNat % 16 = b.toNat := by omega
  rw [escapedByte, hhigh, hlow]
  show some (UInt8.ofNat (b.toNat / 16 * 16 + b.toNat % 16)) = some b
  rw [hvalue, UInt8.ofNat_toNat]

theorem decodeEscapes_escape (octets : List UInt8) (owed : ℕ) (b : UInt8) (rest : JsString) :
    decodeEscapes octets owed (escape b ++ rest) =
      if owed = 0 then
        if b.toNat < 0x80 then (decodeEscapes [] 0 rest).map (UInt16.ofNat b.toNat :: ·)
        else match sequenceLength b with
          | none => none
          | some n => decodeEscapes [b] (n - 1) rest
      else if owed = 1 then
        match decodeUtf8 (octets ++ [b]) with
        | some [c] => (decodeEscapes [] 0 rest).map (utf16Char c ++ ·)
        | _ => none
      else decodeEscapes (octets ++ [b]) (owed - 1) rest := by
  have hescape : escape b ++ rest =
      percentSign :: hexUnit (b.toNat / 16) :: hexUnit (b.toNat % 16) :: rest := rfl
  rw [hescape, decodeEscapes.eq_def]
  simp only [escapedByte_escape, ↓reduceIte] <;> rfl

theorem decodeEscapes_owed {octets bytes : List UInt8} {c : Char} (hne : bytes ≠ [])
    (h : decodeUtf8 (octets ++ bytes) = some [c]) (rest : JsString) :
    decodeEscapes octets bytes.length (bytes.flatMap escape ++ rest) =
      (decodeEscapes [] 0 rest).map (utf16Char c ++ ·) := by
  induction bytes generalizing octets with
  | nil => exact absurd rfl hne
  | cons b bytes ih =>
    rw [List.flatMap_cons, List.append_assoc, decodeEscapes_escape, List.length_cons,
      if_neg (by omega)]
    cases bytes with
    | nil =>
      rw [if_pos (by simp), h, List.flatMap_nil, List.nil_append]
    | cons b' bytes =>
      rw [if_neg (by simp), Nat.add_sub_cancel]
      exact ih (by simp) (by rwa [List.append_assoc])

theorem sequenceLength_utf8 (c : Char) :
    (∃ b, String.utf8EncodeChar c = [b] ∧ b.toNat < 0x80 ∧ utf16Char c = [UInt16.ofNat b.toNat]) ∨
      ∃ b bytes, String.utf8EncodeChar c = b :: bytes ∧ bytes ≠ [] ∧ ¬ b.toNat < 0x80 ∧
        sequenceLength b = some (bytes.length + 1) := by
  have hlt := toNat_lt c
  have hv : c.val.toNat = c.toNat := rfl
  simp only [String.utf8EncodeChar, hv]
  split
  · rename_i h
    have hb : (UInt8.ofNat c.toNat).toNat = c.toNat :=
      UInt8.toNat_ofNat_of_lt' (by show _ < 256; omega)
    refine .inl ⟨_, rfl, by omega, ?_⟩
    rw [utf16Char, if_pos (by omega), hb]
  split
  · refine .inr ⟨_, _, rfl, by simp, ?_, ?_⟩
    · rw [UInt8.toNat_ofNat_of_lt' (by show _ < 256; omega)]
      omega
    · rw [sequenceLength, UInt8.toNat_ofNat_of_lt' (by show _ < 256; omega), if_neg (by omega),
        if_pos (by omega)]
      rfl
  split
  · refine .inr ⟨_, _, rfl, by simp, ?_, ?_⟩
    · rw [UInt8.toNat_ofNat_of_lt' (by show _ < 256; omega)]
      omega
    · rw [sequenceLength, UInt8.toNat_ofNat_of_lt' (by show _ < 256; omega), if_neg (by omega),
        if_neg (by omega), if_pos (by omega)]
      rfl
  · refine .inr ⟨_, _, rfl, by simp, ?_, ?_⟩
    · rw [UInt8.toNat_ofNat_of_lt' (by show _ < 256; omega)]
      omega
    · rw [sequenceLength, UInt8.toNat_ofNat_of_lt' (by show _ < 256; omega), if_neg (by omega),
        if_neg (by omega), if_neg (by omega), if_pos (by omega)]
      rfl

theorem decodeEscapes_encodeChar {keep : UInt16 → Bool} (hkeep : keep percentSign = false)
    (c : Char) (rest : JsString) :
    decodeEscapes [] 0 (encodeChar keep c ++ rest) =
      (decodeEscapes [] 0 rest).map (utf16Char c ++ ·) := by
  rw [encodeChar]
  split
  · rename_i h
    have hpercent : UInt16.ofNat c.toNat ≠ percentSign := by
      intro heq
      have hkept := h.2
      rw [heq, hkeep] at hkept
      exact Bool.false_ne_true hkept
    rw [List.singleton_append, decodeEscapes_plain hpercent, utf16Char, if_pos (by omega)]
    rfl
  · obtain ⟨b, hbytes, hlt, hchar⟩ | ⟨b, bytes, hbytes, hne, hlt, hlength⟩ := sequenceLength_utf8 c
    · rw [hbytes, List.flatMap_cons, List.flatMap_nil, List.append_nil, decodeEscapes_escape,
        if_pos rfl, if_pos hlt, hchar]
      rfl
    · have hdecode : decodeUtf8 ([b] ++ bytes) = some [c] := by
        have hone := decodeUtf8_encode [c]
        rwa [encodeUtf8, List.flatMap_cons, List.flatMap_nil, List.append_nil, hbytes] at hone
      rw [hbytes, List.flatMap_cons, List.append_assoc, decodeEscapes_escape, if_pos rfl,
        if_neg hlt, hlength]
      exact decodeEscapes_owed hne hdecode rest

theorem decode_encodeWith {keep : UInt16 → Bool} (hkeep : keep percentSign = false)
    {s : JsString} (h : WellFormed s) : decodeURIComponent (encodeWith keep s) = some s := by
  have hall : ∀ m : List Char,
      decodeEscapes [] 0 (m.flatMap (encodeChar keep)) = some (utf16 m) := by
    intro m
    induction m with
    | nil => rfl
    | cons c m ih => rw [List.flatMap_cons, decodeEscapes_encodeChar hkeep, ih, utf16_cons]; rfl
  rw [decodeURIComponent, encodeWith, hall, h]

theorem decode_encode {s : JsString} (h : WellFormed s) :
    decodeURIComponent (encodeWith keptInComponent s) = some s :=
  decode_encodeWith (by decide) h

/-! ## Components as segments -/

-- in numbers, for what is decided of each unit
theorem componentMarks :
    js "-_.!~*'()" = [0x2D, 0x5F, 0x2E, 0x21, 0x7E, 0x2A, 0x27, 0x28, 0x29] := by decide

theorem keptInComponent_kept {u : UInt16} (h : keptInComponent u = true) :
    keptInPath u = true ∧ isSlash u = false := by
  have hlt : u.toNat < 0x80 := by
    simp only [keptInComponent, Bool.or_eq_true, Bool.and_eq_true, decide_eq_true_eq] at h
    obtain ((h | h) | h) | h := h
    · omega
    · omega
    · omega
    · have hmarks : ∀ v ∈ js "-_.!~*'()", v.toNat < 0x80 := by
        rw [componentMarks]
        decide
      exact hmarks u h
  have hall : ∀ k : Fin 0x80, keptInComponent (UInt16.ofNat k.val) = true →
      keptInPath (UInt16.ofNat k.val) = true ∧ isSlash (UInt16.ofNat k.val) = false := by
    simp only [keptInComponent, componentMarks]
    decide
  have hu := hall ⟨u.toNat, hlt⟩
  rw [UInt16.ofNat_toNat] at hu
  exact hu h

def dotSpellings : List JsString :=
  [js ".", js "%2e", js "%2E", js "..", js ".%2e", js ".%2E", js "%2e.", js "%2E.", js "%2e%2e",
    js "%2e%2E", js "%2E%2e", js "%2E%2E"]

theorem dotSpellings_units :
    dotSpellings = [[0x2E], [0x25, 0x32, 0x65], [0x25, 0x32, 0x45], [0x2E, 0x2E],
      [0x2E, 0x25, 0x32, 0x65], [0x2E, 0x25, 0x32, 0x45], [0x25, 0x32, 0x65, 0x2E],
      [0x25, 0x32, 0x45, 0x2E], [0x25, 0x32, 0x65, 0x25, 0x32, 0x65],
      [0x25, 0x32, 0x65, 0x25, 0x32, 0x45], [0x25, 0x32, 0x45, 0x25, 0x32, 0x65],
      [0x25, 0x32, 0x45, 0x25, 0x32, 0x45]] := by
  decide

theorem mem_dotSpellings {s : JsString} (h : isSingleDot s = true ∨ isDoubleDot s = true) :
    s ∈ dotSpellings := by
  rw [dotSpellings_units]
  simp only [isSingleDot, isDoubleDot, decide_eq_true_eq, List.mem_cons, List.not_mem_nil,
    or_false] at h
  obtain (h | h) | h | h | h | h := h
  · have hone : lowerAscii s = 0x2E :: [] := h
    obtain ⟨s₁, rfl, h₁⟩ := lowerAscii_dot hone
    rw [lowerAscii_nil h₁]
    decide
  · have hone : lowerAscii s = 0x25 :: 0x32 :: 0x65 :: [] := h
    obtain ⟨s₁, rfl | rfl, h₁⟩ := lowerAscii_escaped hone
    all_goals
      rw [lowerAscii_nil h₁]
      decide
  · have htwo : lowerAscii s = 0x2E :: 0x2E :: [] := h
    obtain ⟨s₁, rfl, h₁⟩ := lowerAscii_dot htwo
    obtain ⟨s₂, rfl, h₂⟩ := lowerAscii_dot h₁
    rw [lowerAscii_nil h₂]
    decide
  · have htwo : lowerAscii s = 0x2E :: 0x25 :: 0x32 :: 0x65 :: [] := h
    obtain ⟨s₁, rfl, h₁⟩ := lowerAscii_dot htwo
    obtain ⟨s₂, rfl | rfl, h₂⟩ := lowerAscii_escaped h₁
    all_goals
      rw [lowerAscii_nil h₂]
      decide
  · have htwo : lowerAscii s = 0x25 :: 0x32 :: 0x65 :: 0x2E :: [] := h
    obtain ⟨s₁, rfl | rfl, h₁⟩ := lowerAscii_escaped htwo
    all_goals
      obtain ⟨s₂, rfl, h₂⟩ := lowerAscii_dot h₁
      rw [lowerAscii_nil h₂]
      decide
  · have htwo : lowerAscii s = 0x25 :: 0x32 :: 0x65 :: 0x25 :: 0x32 :: 0x65 :: [] := h
    obtain ⟨s₁, rfl | rfl, h₁⟩ := lowerAscii_escaped htwo
    all_goals
      obtain ⟨s₂, rfl | rfl, h₂⟩ := lowerAscii_escaped h₁
      all_goals
        rw [lowerAscii_nil h₂]
        decide

theorem decode_dotSpelling : ∀ s ∈ dotSpellings,
    decodeURIComponent s = some (js ".") ∨ decodeURIComponent s = some (js "..") := by
  rw [dotSpellings_units]
  decide

theorem settled_encode {s : JsString} (h : WellFormed s) (hone : s ≠ js ".") (htwo : s ≠ js "..") :
    Settled (encodeWith keptInComponent s) := by
  have hdots : encodeWith keptInComponent s ∉ dotSpellings := by
    intro hmem
    have hdecode := decode_dotSpelling _ hmem
    rw [decode_encode h, Option.some_inj, Option.some_inj] at hdecode
    exact hdecode.elim hone htwo
  refine ⟨fun u hu => ?_, ?_, ?_⟩
  · obtain ⟨-, hkept⟩ | hescape := mem_encodeWith hu
    · exact keptInComponent_kept hkept
    · exact escapeUnit_kept hescape
  · rw [← Bool.not_eq_true]
    exact fun hsingle => hdots (mem_dotSpellings (.inl hsingle))
  · rw [← Bool.not_eq_true]
    exact fun hdouble => hdots (mem_dotSpellings (.inr hdouble))

theorem encode_ne_nil {s : JsString} (h : WellFormed s) (hne : s ≠ []) :
    encodeWith keptInComponent s ≠ [] := by
  intro hnil
  have hdecode := decode_encode h
  rw [hnil] at hdecode
  exact hne (Option.some.inj hdecode).symm

end Daloy.UrlStandard
