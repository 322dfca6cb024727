import Daloy.Foundations.Encodings
import Daloy.Foundations.UriEncoding

/-! # Percent-decoding

Nothing here mentions a program. The bytes that a text stands for: its UTF-8, where an escape is one
byte and anything else stays as it is.

* `percentDecode_break`: a byte that is in no escape cuts the bytes in two.
* `decoded_encodeWith`: percent-encoding does not change what is decoded.
* `length_decoded_remove`: without an ASCII unit that is in no escape, less is decoded.
-/

namespace Daloy.UrlStandard
set_option autoImplicit false

open Daloy.Unicode

def hexByte (b : UInt8) : Option ℕ :=
  if 0x30 ≤ b.toNat ∧ b.toNat ≤ 0x39 then some (b.toNat - 0x30)
  else if 0x41 ≤ b.toNat ∧ b.toNat ≤ 0x46 then some (b.toNat - 0x37)
  else if 0x61 ≤ b.toNat ∧ b.toNat ≤ 0x66 then some (b.toNat - 0x57)
  else none

def escapeAt : List UInt8 → Option (UInt8 × List UInt8)
  | a :: c :: rest =>
    match hexByte a, hexByte c with
    | some high, some low => some (UInt8.ofNat (high * 16 + low), rest)
    | _, _ => none
  | _ => none

theorem escapeAt_eq_some {bytes rest : List UInt8} {b : UInt8} (h : escapeAt bytes = some (b, rest)) :
    ∃ a c, bytes = a :: c :: rest ∧ (hexByte a).isSome = true ∧ (hexByte c).isSome = true := by
  cases bytes with
  | nil => simp [escapeAt] at h
  | cons a bytes =>
    cases bytes with
    | nil => simp [escapeAt] at h
    | cons c bytes =>
      rw [escapeAt] at h
      split at h
      · rename_i high low ha hc
        obtain ⟨-, rfl⟩ := Prod.mk.inj (Option.some.inj h)
        exact ⟨a, c, rfl, by rw [ha]; rfl, by rw [hc]; rfl⟩
      · simp at h

def percentDecode (bytes : List UInt8) : List UInt8 :=
  match bytes with
  | [] => []
  | b :: rest =>
    if b = 0x25 then
      match h : escapeAt rest with
      | some (e, rest') => e :: percentDecode rest'
      | none => b :: percentDecode rest
    else b :: percentDecode rest
termination_by bytes.length
decreasing_by
  · obtain ⟨a, c, rfl, -⟩ := escapeAt_eq_some h
    simp
    omega
  · simp
  · simp

def decoded (s : JsString) : List UInt8 := percentDecode (encodeText s)

theorem percentDecode_nil : percentDecode [] = [] := by
  rw [percentDecode]

theorem percentDecode_other {b : UInt8} (h : b ≠ 0x25) (rest : List UInt8) :
    percentDecode (b :: rest) = b :: percentDecode rest := by
  rw [percentDecode, if_neg h]

theorem percentDecode_escape {e : UInt8} {bytes rest : List UInt8}
    (h : escapeAt bytes = some (e, rest)) :
    percentDecode (0x25 :: bytes) = e :: percentDecode rest := by
  rw [percentDecode, if_pos rfl]
  split
  · rename_i e' rest' h'
    rw [h] at h'
    obtain ⟨rfl, rfl⟩ := Prod.mk.inj (Option.some.inj h')
    rfl
  · rename_i h'
    rw [h] at h'
    simp at h'

theorem percentDecode_literal {bytes : List UInt8} (h : escapeAt bytes = none) :
    percentDecode (0x25 :: bytes) = 0x25 :: percentDecode bytes := by
  rw [percentDecode, if_pos rfl]
  split
  · rename_i e' rest' h'
    rw [h] at h'
    simp at h'
  · rfl

theorem hexByte_percent {b : UInt8} (h : (hexByte b).isSome = true) : b ≠ 0x25 := by
  rintro rfl
  exact absurd h (by decide)

/-! ## Breaks -/

def Breaks (b : UInt8) : Prop := b ≠ 0x25 ∧ hexByte b = none

instance (b : UInt8) : Decidable (Breaks b) := inferInstanceAs (Decidable (_ ∧ _))

theorem escapeAt_append_break {bytes : List UInt8} {b : UInt8} (hb : Breaks b) (rest : List UInt8) :
    escapeAt (bytes ++ b :: rest) =
      (escapeAt bytes).map fun e => (e.1, e.2 ++ b :: rest) := by
  cases bytes with
  | nil =>
    cases rest with
    | nil => rfl
    | cons c rest => simp [escapeAt, hb.2]
  | cons a bytes =>
    cases bytes with
    | nil =>
      rw [List.singleton_append, escapeAt, hb.2]
      cases hexByte a with
      | none => rfl
      | some high => rfl
    | cons c bytes =>
      rw [List.cons_append, List.cons_append, escapeAt, escapeAt]
      split
      · rfl
      · rfl

theorem percentDecode_break {b : UInt8} (hb : Breaks b) (bytes rest : List UInt8) :
    percentDecode (bytes ++ b :: rest) = percentDecode bytes ++ b :: percentDecode rest := by
  induction hn : bytes.length using Nat.strong_induction_on generalizing bytes with
  | _ n ih =>
    cases bytes with
    | nil => rw [List.nil_append, percentDecode_other hb.1, percentDecode_nil, List.nil_append]
    | cons a bytes =>
      rw [List.length_cons] at hn
      rw [List.cons_append]
      by_cases ha : a = 0x25
      · subst ha
        cases hescape : escapeAt bytes with
        | none =>
          have hnone : escapeAt (bytes ++ b :: rest) = none := by
            rw [escapeAt_append_break hb, hescape]
            rfl
          rw [percentDecode_literal hnone, percentDecode_literal hescape,
            ih bytes.length (by omega) bytes rfl]
          rfl
        | some e =>
          have hsome : escapeAt (bytes ++ b :: rest) = some (e.1, e.2 ++ b :: rest) := by
            rw [escapeAt_append_break hb, hescape]
            rfl
          obtain ⟨x, y, hbytes, -⟩ := escapeAt_eq_some hescape
          rw [percentDecode_escape hsome, percentDecode_escape hescape,
            ih e.2.length (by rw [← hn, hbytes]; simp; omega) e.2 rfl]
          rfl
      · rw [percentDecode_other ha, percentDecode_other ha, ih bytes.length (by omega) bytes rfl]
        rfl

/-! ## Lengths -/

theorem length_percentDecode_cons_le (b : UInt8) (bytes : List UInt8) :
    (percentDecode (b :: bytes)).length ≤ (percentDecode bytes).length + 1 := by
  by_cases hb : b = 0x25
  · subst hb
    cases hescape : escapeAt bytes with
    | none => rw [percentDecode_literal hescape, List.length_cons]
    | some e =>
      obtain ⟨x, y, hbytes, hx, hy⟩ := escapeAt_eq_some hescape
      rw [percentDecode_escape hescape, hbytes, percentDecode_other (hexByte_percent hx),
        percentDecode_other (hexByte_percent hy)]
      simp only [List.length_cons]
      omega
  · rw [percentDecode_other hb, List.length_cons]

theorem length_percentDecode_le (bytes : List UInt8) :
    (percentDecode bytes).length ≤ bytes.length := by
  induction bytes with
  | nil => rw [percentDecode_nil]
  | cons b bytes ih =>
    have hcons := length_percentDecode_cons_le b bytes
    rw [List.length_cons]
    omega

theorem length_percentDecode_append_le (bytes more : List UInt8) :
    (percentDecode (bytes ++ more)).length ≤
      (percentDecode bytes).length + (percentDecode more).length := by
  induction hn : bytes.length using Nat.strong_induction_on generalizing bytes with
  | _ n ih =>
    cases bytes with
    | nil => simp [percentDecode_nil]
    | cons a bytes =>
      rw [List.length_cons] at hn
      rw [List.cons_append]
      by_cases ha : a = 0x25
      · subst ha
        cases hescape : escapeAt bytes with
        | none =>
          have hcons := length_percentDecode_cons_le 0x25 (bytes ++ more)
          have hrest := ih bytes.length (by omega) bytes rfl
          rw [percentDecode_literal hescape, List.length_cons]
          omega
        | some e =>
          obtain ⟨x, y, hbytes, -⟩ := escapeAt_eq_some hescape
          have happend : escapeAt (bytes ++ more) = some (e.1, e.2 ++ more) := by
            subst hbytes
            rw [escapeAt] at hescape
            rw [List.cons_append, List.cons_append, escapeAt]
            split at hescape
            · rw [← Option.some.inj hescape]
            · simp at hescape
          have hrest := ih e.2.length (by rw [← hn, hbytes]; simp; omega) e.2 rfl
          rw [percentDecode_escape happend, percentDecode_escape hescape, List.length_cons,
            List.length_cons]
          omega
      · have hrest := ih bytes.length (by omega) bytes rfl
        rw [percentDecode_other ha, percentDecode_other ha, List.length_cons, List.length_cons]
        omega

/-! ## Texts -/

theorem scalars_append_cases (a b : JsString) :
    scalars (a ++ b) = scalars a ++ scalars b ∨
      ∃ m n c, scalars a = m ++ [replacement] ∧ scalars b = replacement :: n ∧
        scalars (a ++ b) = m ++ c :: n ∧ 0x80 ≤ c.toNat := by
  fun_induction scalars a with
  | case1 => exact .inl rfl
  | case2 u =>
    cases b with
    | nil => exact .inl rfl
    | cons v b =>
      rw [List.singleton_append]
      by_cases hu : isHighSurrogate u = true
      · by_cases hv : isLowSurrogate v = true
        · have hnot : isHighSurrogate v = false := by
            simp only [isLowSurrogate, Bool.and_eq_true, decide_eq_true_eq] at hv
            simp only [isHighSurrogate, Bool.and_eq_false_iff, decide_eq_false_iff_not]
            omega
          have hlone : scalars (v :: b) = replacement :: scalars b := by
            cases b with
            | nil => simp [scalars, hnot, hv]
            | cons w b => simp [scalars, hnot, hv]
          refine .inr ⟨[], scalars b, combine u v, by simp [hu], hlone, ?_,
            combine_toNat_ge u v hu hv⟩
          rw [scalars_pair u v b hu hv]
          rfl
        · refine .inl ?_
          rw [scalars, if_pos hu, if_neg hv, hu]
          rfl
      · refine .inl ?_
        rw [scalars, if_neg hu]
        simp [hu]
  | case3 u v rest hu hv ih =>
    rw [List.cons_append, List.cons_append, scalars_pair u v _ hu hv]
    obtain h | ⟨m, n, c, ha, hb, hab, hc⟩ := ih
    · exact .inl (by rw [h]; rfl)
    · exact .inr ⟨combine u v :: m, n, c, by rw [ha]; rfl, hb, by rw [hab]; rfl, hc⟩
  | case4 u v rest hu hv ih =>
    have hnext : scalars (u :: v :: rest ++ b) = replacement :: scalars (v :: rest ++ b) := by
      rw [List.cons_append, List.cons_append, scalars, if_pos hu, if_neg hv]
    rw [hnext]
    obtain h | ⟨m, n, c, ha, hb, hab, hc⟩ := ih
    · exact .inl (by rw [h]; rfl)
    · exact .inr ⟨replacement :: m, n, c, by rw [ha]; rfl, hb, by rw [hab]; rfl, hc⟩
  | case5 u v rest hu ih =>
    have hnext : scalars (u :: v :: rest ++ b) =
        (if isLowSurrogate u then replacement else Char.ofNat u.toNat) :: scalars (v :: rest ++ b) := by
      rw [List.cons_append, List.cons_append, scalars, if_neg hu]
    rw [hnext]
    obtain h | ⟨m, n, c, ha, hb, hab, hc⟩ := ih
    · exact .inl (by rw [h]; rfl)
    · exact .inr ⟨_ :: m, n, c, by rw [ha]; rfl, hb, by rw [hab]; rfl, hc⟩

theorem encodeUtf8_append (m n : List Char) : encodeUtf8 (m ++ n) = encodeUtf8 m ++ encodeUtf8 n :=
  List.flatMap_append

theorem encodeUtf8_cons (c : Char) (m : List Char) :
    encodeUtf8 (c :: m) = String.utf8EncodeChar c ++ encodeUtf8 m := List.flatMap_cons

theorem length_utf8EncodeChar_le (c : Char) : (String.utf8EncodeChar c).length ≤ 4 := by
  simp only [String.utf8EncodeChar]
  split
  · simp
  · split
    · simp
    · split
      · simp
      · simp

theorem percentDecode_replacement (bytes rest : List UInt8) :
    percentDecode (bytes ++ (String.utf8EncodeChar replacement ++ rest)) =
      percentDecode bytes ++ (String.utf8EncodeChar replacement ++ percentDecode rest) := by
  have hbytes : String.utf8EncodeChar replacement = [0xEF, 0xBF, 0xBD] := by decide
  rw [hbytes, List.cons_append, percentDecode_break (by decide), List.cons_append,
    percentDecode_other (by decide), List.cons_append, percentDecode_other (by decide)]
  rfl

theorem length_decoded_append_le (a b : JsString) :
    (decoded (a ++ b)).length ≤ (decoded a).length + (decoded b).length := by
  obtain h | ⟨m, n, c, ha, hb, hab, -⟩ := scalars_append_cases a b
  · rw [decoded, decoded, decoded, encodeText, encodeText, encodeText, h, encodeUtf8_append]
    exact length_percentDecode_append_le _ _
  · have hthree : (String.utf8EncodeChar replacement).length = 3 := by decide
    have hfront := percentDecode_replacement (encodeUtf8 m) []
    have hback := percentDecode_replacement [] (encodeUtf8 n)
    rw [List.append_nil, percentDecode_nil, List.append_nil] at hfront
    rw [List.nil_append, percentDecode_nil, List.nil_append] at hback
    have hfour := length_utf8EncodeChar_le c
    have hwhole := length_percentDecode_append_le (encodeUtf8 m)
      (String.utf8EncodeChar c ++ encodeUtf8 n)
    have hrest := length_percentDecode_append_le (String.utf8EncodeChar c) (encodeUtf8 n)
    have hchar := length_percentDecode_le (String.utf8EncodeChar c)
    rw [decoded, decoded, decoded, encodeText, encodeText, encodeText, ha, hb, hab,
      encodeUtf8_append, encodeUtf8_append, encodeUtf8_cons, encodeUtf8_cons, encodeUtf8_cons, hback]
    have hnil : encodeUtf8 [] = [] := rfl
    rw [hnil, List.append_nil, hfront]
    simp only [List.length_append]
    omega

/-- A unit that is in no escape, nor in a pair of surrogates. -/
structure BreaksText (u : UInt16) : Prop where
  ascii : u.toNat < 0x80
  breaks : Breaks (UInt8.ofNat u.toNat)

theorem scalars_break {u : UInt16} (hu : u.toNat < 0x80) (a b : JsString) :
    scalars (a ++ u :: b) = scalars a ++ Char.ofNat u.toNat :: scalars b := by
  have hplain := isPlain_ascii hu
  have hunit := scalars_unit u b hplain.1 hplain.2
  obtain h | ⟨m, n, c, -, hb, -⟩ := scalars_append_cases a (u :: b)
  · rw [h, hunit]
  · rw [hunit] at hb
    have hvalue := congrArg Char.toNat (List.cons.inj hb).1
    have hvalid : u.toNat.isValidChar := by
      unfold Nat.isValidChar
      omega
    have hchar : (Char.ofNat u.toNat).toNat = u.toNat := by
      rw [Char.ofNat, dif_pos hvalid]
      rfl
    have hreplacement : replacement.toNat = 0xFFFD := by decide
    omega

theorem decoded_break {u : UInt16} (hu : BreaksText u) (a b : JsString) :
    decoded (a ++ u :: b) = decoded a ++ UInt8.ofNat u.toNat :: decoded b := by
  have hchar : String.utf8EncodeChar (Char.ofNat u.toNat) = [UInt8.ofNat u.toNat] := by
    have hall : ∀ k : Fin 0x80, String.utf8EncodeChar (Char.ofNat k.val) = [UInt8.ofNat k.val] := by
      decide
    exact hall ⟨u.toNat, hu.ascii⟩
  rw [decoded, encodeText, scalars_break hu.ascii, encodeUtf8_append, encodeUtf8_cons, hchar]
  exact percentDecode_break hu.breaks _ _

theorem length_decoded_remove {u : UInt16} (hu : BreaksText u) (a b : JsString) :
    (decoded (a ++ b)).length < (decoded (a ++ u :: b)).length := by
  have hle := length_decoded_append_le a b
  rw [decoded_break hu, List.length_append, List.length_cons]
  omega

theorem length_decoded_filter {p : UInt16 → Bool} (hp : ∀ u, p u = false → BreaksText u)
    (a s : JsString) : (decoded (a ++ s.filter p)).length ≤ (decoded (a ++ s)).length ∧
      ((decoded (a ++ s)).length ≤ (decoded (a ++ s.filter p)).length → s.filter p = s) := by
  induction s generalizing a with
  | nil => exact ⟨Nat.le_refl _, fun _ => rfl⟩
  | cons u s ih =>
    by_cases hu : p u = true
    · obtain ⟨hle, heq⟩ := ih (a ++ [u])
      rw [List.append_assoc, List.append_assoc, List.singleton_append, List.singleton_append]
        at hle heq
      rw [List.filter_cons_of_pos hu]
      exact ⟨hle, fun h => by rw [heq h]⟩
    · obtain ⟨hle, -⟩ := ih a
      have hlt := length_decoded_remove (hp u (by simpa using hu)) a s
      rw [List.filter_cons_of_neg hu]
      exact ⟨by omega, fun h => by omega⟩

/-! ## Encoding -/

section Encoding

variable {keep : UInt16 → Bool}

def keepsByte (keep : UInt16 → Bool) (b : UInt8) : Bool :=
  b.toNat < 0x80 && keep (UInt16.ofNat b.toNat)

def escapeByte (b : UInt8) : List UInt8 := (escape b).map fun u => UInt8.ofNat u.toNat

def encodeBytes (keep : UInt16 → Bool) (bytes : List UInt8) : List UInt8 :=
  bytes.flatMap fun b => if keepsByte keep b then [b] else escapeByte b

theorem escapeAt_first {a : UInt8} (h : hexByte a = none) (rest : List UInt8) :
    escapeAt (a :: rest) = none := by
  cases rest with
  | nil => rfl
  | cons c rest => rw [escapeAt, h]

theorem escapeAt_second {c : UInt8} (h : hexByte c = none) (a : UInt8) (rest : List UInt8) :
    escapeAt (a :: c :: rest) = none := by
  rw [escapeAt, h]
  cases hexByte a with
  | none => rfl
  | some high => rfl

theorem escapeByte_eq (b : UInt8) : escapeByte b =
    [0x25, UInt8.ofNat (hexUnit (b.toNat / 16)).toNat, UInt8.ofNat (hexUnit (b.toNat % 16)).toNat] :=
  rfl

theorem percentDecode_escapeByte (b : UInt8) (rest : List UInt8) :
    percentDecode (escapeByte b ++ rest) = b :: percentDecode rest := by
  have hhex : ∀ k : Fin 16, hexByte (UInt8.ofNat (hexUnit k.val).toNat) = some k.val := by decide
  have hlt := b.toNat_lt
  have hhigh := hhex ⟨b.toNat / 16, by omega⟩
  have hlow := hhex ⟨b.toNat % 16, by omega⟩
  dsimp only at hhigh hlow
  have hvalue : UInt8.ofNat (b.toNat / 16 * 16 + b.toNat % 16) = b := by
    rw [Nat.div_add_mod', UInt8.ofNat_toNat]
  rw [escapeByte_eq, List.cons_append]
  refine percentDecode_escape ?_
  rw [List.cons_append, List.cons_append, escapeAt, hhigh, hlow]
  dsimp only
  rw [hvalue]
  rfl

/-- What has to be kept for an escape to stay one. -/
structure KeepsEscapes (keep : UInt16 → Bool) : Prop where
  ascii : ∀ u, keep u = true → u.toNat < 0x80
  percent : keepsByte keep 0x25 = true
  digits : ∀ b, (hexByte b).isSome = true → keepsByte keep b = true

theorem escapeAt_encodeBytes (h : KeepsEscapes keep) (bytes : List UInt8) :
    escapeAt (encodeBytes keep bytes) =
      (escapeAt bytes).map fun e => (e.1, encodeBytes keep e.2) := by
  have hcons : ∀ (a : UInt8) (more : List UInt8), encodeBytes keep (a :: more) =
      (if keepsByte keep a then [a] else escapeByte a) ++ encodeBytes keep more :=
    fun a more => List.flatMap_cons
  have hpercent : hexByte 0x25 = none := by decide
  have hlost : ∀ {a : UInt8}, ¬ keepsByte keep a = true → hexByte a = none := by
    intro a ha
    rw [← Option.not_isSome_iff_eq_none]
    exact fun hhex => ha (h.digits a hhex)
  cases bytes with
  | nil => rfl
  | cons a bytes =>
    rw [hcons]
    by_cases ha : keepsByte keep a = true
    · rw [if_pos ha, List.singleton_append]
      cases bytes with
      | nil => rfl
      | cons c bytes =>
        rw [hcons]
        by_cases hc : keepsByte keep c = true
        · rw [if_pos hc, List.singleton_append, escapeAt, escapeAt]
          split
          · rfl
          · rfl
        · rw [if_neg hc, escapeByte_eq, List.cons_append, escapeAt_second hpercent,
            escapeAt_second (hlost hc)]
          rfl
    · rw [if_neg ha, escapeByte_eq, List.cons_append, escapeAt_first hpercent,
        escapeAt_first (hlost ha)]
      rfl

theorem percentDecode_encodeBytes (h : KeepsEscapes keep) (bytes : List UInt8) :
    percentDecode (encodeBytes keep bytes) = percentDecode bytes := by
  induction hn : bytes.length using Nat.strong_induction_on generalizing bytes with
  | _ n ih =>
    cases bytes with
    | nil => rfl
    | cons b bytes =>
      rw [List.length_cons] at hn
      have hrest := ih bytes.length (by omega) bytes rfl
      rw [encodeBytes, List.flatMap_cons, ← encodeBytes]
      by_cases hb : b = 0x25
      · subst hb
        rw [if_pos h.percent, List.singleton_append]
        cases hescape : escapeAt bytes with
        | none =>
          have hnone : escapeAt (encodeBytes keep bytes) = none := by
            rw [escapeAt_encodeBytes h, hescape]
            rfl
          rw [percentDecode_literal hnone, percentDecode_literal hescape, hrest]
        | some e =>
          have hsome : escapeAt (encodeBytes keep bytes) = some (e.1, encodeBytes keep e.2) := by
            rw [escapeAt_encodeBytes h, hescape]
            rfl
          obtain ⟨x, y, hbytes, -⟩ := escapeAt_eq_some hescape
          rw [percentDecode_escape hsome, percentDecode_escape hescape,
            ih e.2.length (by rw [← hn, hbytes]; simp; omega) e.2 rfl]
      · rw [percentDecode_other hb]
        split
        · rw [List.singleton_append, percentDecode_other hb, hrest]
        · rw [percentDecode_escapeByte, hrest]

theorem utf8EncodeChar_ascii {c : Char} (h : c.toNat < 0x80) :
    String.utf8EncodeChar c = [UInt8.ofNat c.toNat] := by
  have hv : c.val.toNat = c.toNat := rfl
  simp only [String.utf8EncodeChar, hv]
  rw [if_pos (by omega)]

theorem utf8EncodeChar_large {c : Char} (h : ¬ c.toNat < 0x80) :
    ∀ b ∈ String.utf8EncodeChar c, ¬ b.toNat < 0x80 := by
  have hlt := toNat_lt c
  have hv : c.val.toNat = c.toNat := rfl
  have hbyte : ∀ n : ℕ, 0x80 ≤ n → n < 256 → ¬ (UInt8.ofNat n).toNat < 0x80 := by
    intro n hn hn'
    rw [UInt8.toNat_ofNat_of_lt' (by show _ < 256; omega)]
    omega
  simp only [String.utf8EncodeChar, hv]
  rw [if_neg (by omega)]
  intro b hb
  split at hb
  · simp only [List.mem_cons, List.not_mem_nil, or_false] at hb
    obtain rfl | rfl := hb
    all_goals exact hbyte _ (by omega) (by omega)
  · split at hb
    · simp only [List.mem_cons, List.not_mem_nil, or_false] at hb
      obtain rfl | rfl | rfl := hb
      all_goals exact hbyte _ (by omega) (by omega)
    · simp only [List.mem_cons, List.not_mem_nil, or_false] at hb
      obtain rfl | rfl | rfl | rfl := hb
      all_goals exact hbyte _ (by omega) (by omega)

theorem encodeText_encodeWith (h : KeepsEscapes keep) (s : JsString) :
    encodeText (encodeWith keep s) = encodeBytes keep (encodeText s) := by
  have hascii : ∀ u ∈ encodeWith keep s, u.toNat < 0x80 := by
    intro u hu
    obtain ⟨-, hkept⟩ | hescape := mem_encodeWith hu
    · exact h.ascii u hkept
    · exact keptInPath_lt (escapeUnit_kept hescape).1
  have hchar : ∀ c : Char, (encodeChar keep c).map (fun u => UInt8.ofNat u.toNat) =
      encodeBytes keep (String.utf8EncodeChar c) := by
    intro c
    rw [encodeChar]
    by_cases hc : c.toNat < 0x80
    · have hunit : (UInt16.ofNat c.toNat).toNat = c.toNat :=
        UInt16.toNat_ofNat_of_lt' (by show _ < 65536; omega)
      have hbyte : (UInt8.ofNat c.toNat).toNat = c.toNat :=
        UInt8.toNat_ofNat_of_lt' (by show _ < 256; omega)
      have hkeeps : keepsByte keep (UInt8.ofNat c.toNat) = keep (UInt16.ofNat c.toNat) := by
        rw [keepsByte, hbyte]
        simp [hc]
      have hright : encodeBytes keep [UInt8.ofNat c.toNat] =
          if keepsByte keep (UInt8.ofNat c.toNat) then [UInt8.ofNat c.toNat]
          else escapeByte (UInt8.ofNat c.toNat) := List.append_nil _
      rw [utf8EncodeChar_ascii hc, hright, hkeeps]
      by_cases hkeep : keep (UInt16.ofNat c.toNat) = true
      · rw [if_pos ⟨hc, hkeep⟩, if_pos hkeep, List.map_singleton, hunit]
      · rw [if_neg fun hboth => hkeep hboth.2, if_neg hkeep, List.flatMap_singleton]
        rfl
    · rw [if_neg fun hboth => hc hboth.1, encodeBytes, List.map_flatMap]
      have hall := utf8EncodeChar_large hc
      generalize String.utf8EncodeChar c = bytes at hall
      induction bytes with
      | nil => rfl
      | cons b bytes ih =>
        have hb : ¬ keepsByte keep b = true := by
          rw [keepsByte, Bool.and_eq_true, decide_eq_true_eq]
          exact fun hboth => hall b List.mem_cons_self hboth.1
        rw [List.flatMap_cons, List.flatMap_cons, if_neg hb,
          ih fun x hx => hall x (List.mem_cons_of_mem _ hx)]
        rfl
  rw [encodeText_ascii hascii, encodeWith, List.map_flatMap, encodeText, encodeUtf8, encodeBytes,
    List.flatMap_assoc]
  exact List.flatMap_congr fun c _ => hchar c

theorem decoded_encodeWith (h : KeepsEscapes keep) (s : JsString) :
    decoded (encodeWith keep s) = decoded s := by
  rw [decoded, encodeText_encodeWith h, percentDecode_encodeBytes h]
  rfl

theorem keepsEscapes_path : KeepsEscapes keptInPath where
  ascii := fun _ => keptInPath_lt
  percent := by decide
  digits := by
    have hall : ∀ k : Fin 256, (hexByte (UInt8.ofNat k.val)).isSome = true →
        keepsByte keptInPath (UInt8.ofNat k.val) = true := by decide +kernel
    intro b hb
    have hbyte := hall ⟨b.toNat, b.toNat_lt⟩
    rw [UInt8.ofNat_toNat] at hbyte
    exact hbyte hb

end Encoding

end Daloy.UrlStandard
