import Mathlib.Tactic.Common

/-! # Unicode text: UTF-16 strings, UTF-8 bytes and the conversions between them

Nothing here mentions a program. A string is its list of 16-bit code units, as in every language
whose strings are UTF-16; a well-formed one is `utf16 m` for a list `m` of scalar values (Lean's
`Char` is exactly a Unicode scalar value).

* `scalars`: code units to scalar values, a lone surrogate read as U+FFFD.
* `decodeUtf8`: the byte-at-a-time UTF-8 decoder in its fatal mode, `none` on malformed input.
* `encodeText`, `decodeText`: strings to bytes and back as the WHATWG encoder and its fatal decoder
  do it, with the decoder's default removal of a leading byte order mark.
* `scalars_utf16`, `decodeUtf8_encode`: both conversions undo their encoders.
-/

namespace Daloy.Unicode
set_option autoImplicit false

abbrev JsString := List UInt16

/-! ## UTF-16 -/

/-- The code units of one scalar value: one unit, or a surrogate pair above the BMP. -/
def utf16Char (c : Char) : JsString :=
  if c.toNat < 0x10000 then [UInt16.ofNat c.toNat]
  else [UInt16.ofNat (0xD800 + (c.toNat - 0x10000) / 0x400),
    UInt16.ofNat (0xDC00 + (c.toNat - 0x10000) % 0x400)]

def utf16 (m : List Char) : JsString := m.flatMap utf16Char

def js (s : String) : JsString := utf16 s.toList

instance lawfulBEq_jsString : LawfulBEq JsString := inferInstance

/-- What holds of every unit of a string is decided over the string, not over all units. -/
instance (priority := high) decidableUnits (s : JsString) (p : UInt16 → Prop) [DecidablePred p] :
    Decidable (∀ u ∈ s, p u) :=
  List.decidableBAll p s

def isHighSurrogate (u : UInt16) : Bool := 0xD800 ≤ u.toNat && u.toNat ≤ 0xDBFF
def isLowSurrogate (u : UInt16) : Bool := 0xDC00 ≤ u.toNat && u.toNat ≤ 0xDFFF

def combine (u v : UInt16) : Char :=
  Char.ofNat (0x10000 + (u.toNat - 0xD800) * 0x400 + (v.toNat - 0xDC00))

def replacement : Char := Char.ofNat 0xFFFD

def scalars : JsString → List Char
  | [] => []
  | [u] => [if isHighSurrogate u || isLowSurrogate u then replacement else Char.ofNat u.toNat]
  | u :: v :: rest =>
    if isHighSurrogate u then
      if isLowSurrogate v then combine u v :: scalars rest else replacement :: scalars (v :: rest)
    else (if isLowSurrogate u then replacement else Char.ofNat u.toNat) :: scalars (v :: rest)

def WellFormed (s : JsString) : Prop := utf16 (scalars s) = s

instance (s : JsString) : Decidable (WellFormed s) := inferInstanceAs (Decidable (_ = _))

@[simp] theorem utf16_nil : utf16 [] = [] := rfl

@[simp] theorem utf16_cons (c : Char) (m : List Char) :
    utf16 (c :: m) = utf16Char c ++ utf16 m := rfl

theorem utf16_append (m n : List Char) : utf16 (m ++ n) = utf16 m ++ utf16 n :=
  List.flatMap_append

theorem toNat_lt (c : Char) : c.toNat < 0x110000 := by
  have h : c.toNat.isValidChar := c.valid
  unfold Nat.isValidChar at h
  omega

theorem not_surrogate (c : Char) : ¬ (0xD800 ≤ c.toNat ∧ c.toNat ≤ 0xDFFF) := by
  have h : c.toNat.isValidChar := c.valid
  unfold Nat.isValidChar at h
  omega

theorem scalars_unit (u : UInt16) (rest : JsString) (hh : isHighSurrogate u = false)
    (hl : isLowSurrogate u = false) : scalars (u :: rest) = Char.ofNat u.toNat :: scalars rest := by
  cases rest with
  | nil => simp [scalars, hh, hl]
  | cons v rest => simp [scalars, hh, hl]

theorem scalars_pair (u v : UInt16) (rest : JsString) (hh : isHighSurrogate u = true)
    (hl : isLowSurrogate v = true) : scalars (u :: v :: rest) = combine u v :: scalars rest := by
  rw [scalars, if_pos hh, if_pos hl]

theorem scalars_utf16Char (c : Char) (rest : JsString) :
    scalars (utf16Char c ++ rest) = c :: scalars rest := by
  have hlt := toNat_lt c
  have hns := not_surrogate c
  unfold utf16Char
  split
  · next hbmp =>
    have hu : (UInt16.ofNat c.toNat).toNat = c.toNat := UInt16.toNat_ofNat_of_lt' hbmp
    rw [List.singleton_append, scalars_unit, hu, Char.ofNat_toNat]
    · simp only [isHighSurrogate, hu]
      simp; omega
    · simp only [isLowSurrogate, hu]
      simp; omega
  · next hbmp =>
    have hu : (UInt16.ofNat (0xD800 + (c.toNat - 0x10000) / 0x400)).toNat =
        0xD800 + (c.toNat - 0x10000) / 0x400 := UInt16.toNat_ofNat_of_lt' (by
      show _ < 65536; omega)
    have hv : (UInt16.ofNat (0xDC00 + (c.toNat - 0x10000) % 0x400)).toNat =
        0xDC00 + (c.toNat - 0x10000) % 0x400 := UInt16.toNat_ofNat_of_lt' (by
      show _ < 65536; omega)
    have hhigh : isHighSurrogate (UInt16.ofNat (0xD800 + (c.toNat - 0x10000) / 0x400)) = true := by
      simp only [isHighSurrogate, hu]
      simp; omega
    have hlow : isLowSurrogate (UInt16.ofNat (0xDC00 + (c.toNat - 0x10000) % 0x400)) = true := by
      simp only [isLowSurrogate, hv]
      simp; omega
    have hc : combine (UInt16.ofNat (0xD800 + (c.toNat - 0x10000) / 0x400))
        (UInt16.ofNat (0xDC00 + (c.toNat - 0x10000) % 0x400)) = c := by
      unfold combine
      rw [hu, hv, show 0x10000 + (0xD800 + (c.toNat - 0x10000) / 0x400 - 0xD800) * 0x400 +
        (0xDC00 + (c.toNat - 0x10000) % 0x400 - 0xDC00) = c.toNat by omega, Char.ofNat_toNat]
    rw [List.cons_append, List.singleton_append, scalars_pair _ _ _ hhigh hlow, hc]

theorem scalars_utf16 (m : List Char) : scalars (utf16 m) = m := by
  induction m with
  | nil => rfl
  | cons c m ih => rw [utf16_cons, scalars_utf16Char, ih]

def IsPlain (u : UInt16) : Prop := isHighSurrogate u = false ∧ isLowSurrogate u = false

theorem char_toNat {u : UInt16} (h : IsPlain u) : (Char.ofNat u.toNat).toNat = u.toNat := by
  have hlt := u.toNat_lt
  have hvalid : u.toNat.isValidChar := by
    obtain ⟨hhigh, hlow⟩ := h
    simp only [isHighSurrogate, isLowSurrogate, Bool.and_eq_false_iff, decide_eq_false_iff_not]
      at hhigh hlow
    unfold Nat.isValidChar
    omega
  rw [Char.ofNat, dif_pos hvalid]
  rfl

instance (u : UInt16) : Decidable (IsPlain u) := inferInstanceAs (Decidable (_ ∧ _))

theorem scalars_append {a : JsString} (h : ∀ u ∈ a, IsPlain u) (s : JsString) :
    scalars (a ++ s) = scalars a ++ scalars s := by
  induction a with
  | nil => rfl
  | cons u a ih =>
    obtain ⟨hh, hl⟩ := h u (List.mem_cons_self ..)
    rw [List.cons_append, scalars_unit u _ hh hl, scalars_unit u _ hh hl,
      ih fun v hv => h v (List.mem_cons_of_mem _ hv), List.cons_append]

theorem scalars_plain_inj {a b : JsString} (ha : ∀ u ∈ a, IsPlain u) (hb : ∀ u ∈ b, IsPlain u)
    (h : scalars a = scalars b) : a = b := by
  have hvalue {u : UInt16} (hu : IsPlain u) : (Char.ofNat u.toNat).toNat = u.toNat := by
    have hlt := u.toNat_lt
    obtain ⟨hh, hl⟩ := hu
    simp only [isHighSurrogate, isLowSurrogate, Bool.and_eq_false_iff, decide_eq_false_iff_not]
      at hh hl
    have hvalid : u.toNat.isValidChar := by
      unfold Nat.isValidChar
      omega
    rw [Char.ofNat, dif_pos hvalid]
    rfl
  induction a generalizing b with
  | nil =>
    cases b with
    | nil => rfl
    | cons v b =>
      rw [scalars_unit v _ (hb v (List.mem_cons_self ..)).1 (hb v (List.mem_cons_self ..)).2] at h
      simp [scalars] at h
  | cons u a ih =>
    have hu := ha u (List.mem_cons_self ..)
    rw [scalars_unit u _ hu.1 hu.2] at h
    cases b with
    | nil => simp [scalars] at h
    | cons v b =>
      have hv := hb v (List.mem_cons_self ..)
      rw [scalars_unit v _ hv.1 hv.2] at h
      obtain ⟨hchar, hrest⟩ := List.cons.inj h
      have hunit : u = v := by
        apply UInt16.toNat.inj
        rw [← hvalue hu, ← hvalue hv, hchar]
      rw [hunit, ih (fun w hw => ha w (List.mem_cons_of_mem _ hw))
        (fun w hw => hb w (List.mem_cons_of_mem _ hw)) hrest]

theorem utf16_injective {m n : List Char} (h : utf16 m = utf16 n) : m = n := by
  rw [← scalars_utf16 m, h, scalars_utf16]

theorem wellFormed_utf16 (m : List Char) : WellFormed (utf16 m) := by
  rw [WellFormed, scalars_utf16]

/-! ## UTF-8 -/

def encodeUtf8 (m : List Char) : List UInt8 := m.flatMap String.utf8EncodeChar

/-- A multi-byte sequence in progress: the bits read so far, how many continuation bytes are
still owed, and the range the next one has to lie in. -/
structure Pending where
  codePoint : ℕ
  needed : ℕ
  lower : ℕ
  upper : ℕ

def Pending.start : Pending := ⟨0, 0, 0x80, 0xBF⟩

/-- The decoder from a pending sequence: `none` where a byte cannot continue it, or where the
input ends inside it. -/
def decodeFrom : Pending → List UInt8 → Option (List Char)
  | p, [] => if p.needed = 0 then some [] else none
  | p, b :: bs =>
    if p.needed = 0 then
      if b.toNat ≤ 0x7F then (decodeFrom .start bs).map (Char.ofNat b.toNat :: ·)
      else if 0xC2 ≤ b.toNat ∧ b.toNat ≤ 0xDF then
        decodeFrom ⟨b.toNat % 0x20, 1, 0x80, 0xBF⟩ bs
      else if 0xE0 ≤ b.toNat ∧ b.toNat ≤ 0xEF then
        -- no overlong form after E0, no surrogate after ED
        decodeFrom ⟨b.toNat % 0x10, 2, if b.toNat = 0xE0 then 0xA0 else 0x80,
          if b.toNat = 0xED then 0x9F else 0xBF⟩ bs
      else if 0xF0 ≤ b.toNat ∧ b.toNat ≤ 0xF4 then
        -- no overlong form after F0, nothing above U+10FFFF after F4
        decodeFrom ⟨b.toNat % 0x08, 3, if b.toNat = 0xF0 then 0x90 else 0x80,
          if b.toNat = 0xF4 then 0x8F else 0xBF⟩ bs
      else none
    else if p.lower ≤ b.toNat ∧ b.toNat ≤ p.upper then
      if p.needed = 1 then
        (decodeFrom .start bs).map (Char.ofNat (p.codePoint * 0x40 + b.toNat % 0x40) :: ·)
      else decodeFrom ⟨p.codePoint * 0x40 + b.toNat % 0x40, p.needed - 1, 0x80, 0xBF⟩ bs
    else none

def decodeUtf8 (bs : List UInt8) : Option (List Char) := decodeFrom .start bs

theorem decodeFrom_last (p : Pending) (k : ℕ) (bs : List UInt8) (hk : k < 0x40)
    (hn : p.needed = 1) (hlo : p.lower ≤ k + 0x80) (hhi : k + 0x80 ≤ p.upper) :
    decodeFrom p (UInt8.ofNat (k + 0x80) :: bs) =
      (decodeFrom .start bs).map (Char.ofNat (p.codePoint * 0x40 + k) :: ·) := by
  have hb : (UInt8.ofNat (k + 0x80)).toNat = k + 0x80 :=
    UInt8.toNat_ofNat_of_lt' (by show _ < 256; omega)
  have hmod : (k + 0x80) % 0x40 = k := by omega
  rw [decodeFrom, hb, if_neg (by omega), if_pos ⟨hlo, hhi⟩, if_pos hn, hmod]

theorem decodeFrom_more (p : Pending) (k n : ℕ) (bs : List UInt8) (hk : k < 0x40)
    (hn : p.needed = n + 2) (hlo : p.lower ≤ k + 0x80) (hhi : k + 0x80 ≤ p.upper) :
    decodeFrom p (UInt8.ofNat (k + 0x80) :: bs) =
      decodeFrom ⟨p.codePoint * 0x40 + k, n + 1, 0x80, 0xBF⟩ bs := by
  have hb : (UInt8.ofNat (k + 0x80)).toNat = k + 0x80 :=
    UInt8.toNat_ofNat_of_lt' (by show _ < 256; omega)
  have hmod : (k + 0x80) % 0x40 = k := by omega
  rw [decodeFrom, hb, if_neg (by omega), if_pos ⟨hlo, hhi⟩, if_neg (by omega), hmod, hn]
  rfl

theorem decodeFrom_lead (n : ℕ) (bs : List UInt8) (hn : n < 0x100) :
    decodeFrom .start (UInt8.ofNat n :: bs) =
      if n ≤ 0x7F then (decodeFrom .start bs).map (Char.ofNat n :: ·)
      else if 0xC2 ≤ n ∧ n ≤ 0xDF then decodeFrom ⟨n % 0x20, 1, 0x80, 0xBF⟩ bs
      else if 0xE0 ≤ n ∧ n ≤ 0xEF then
        decodeFrom ⟨n % 0x10, 2, if n = 0xE0 then 0xA0 else 0x80,
          if n = 0xED then 0x9F else 0xBF⟩ bs
      else if 0xF0 ≤ n ∧ n ≤ 0xF4 then
        decodeFrom ⟨n % 0x08, 3, if n = 0xF0 then 0x90 else 0x80,
          if n = 0xF4 then 0x8F else 0xBF⟩ bs
      else none := by
  have hb : (UInt8.ofNat n).toNat = n := UInt8.toNat_ofNat_of_lt' hn
  rw [decodeFrom, hb]
  rfl

theorem decodeFrom_encodeChar (c : Char) (bs : List UInt8) :
    decodeFrom .start (String.utf8EncodeChar c ++ bs) = (decodeFrom .start bs).map (c :: ·) := by
  have hlt := toNat_lt c
  have hns := not_surrogate c
  have hc : Char.ofNat c.toNat = c := Char.ofNat_toNat c
  have hv : c.val.toNat = c.toNat := rfl
  simp only [String.utf8EncodeChar, hv]
  generalize c.toNat = n at *
  split
  · next h1 => rw [List.singleton_append, decodeFrom_lead _ _ (by omega), if_pos h1, hc]
  split
  · next h1 h2 =>
    simp only [List.cons_append, List.nil_append]
    rw [decodeFrom_lead _ _ (by omega), if_neg (by omega), if_pos (by omega),
      decodeFrom_last _ _ _ (by omega) rfl (by simp) (by dsimp only; omega)]
    dsimp only
    rw [show (n / 64 % 0x20 + 0xC0) % 0x20 * 0x40 + n % 0x40 = n by omega, hc]
  split
  · next h1 h2 h3 =>
    simp only [List.cons_append, List.nil_append]
    rw [decodeFrom_lead _ _ (by omega), if_neg (by omega), if_neg (by omega), if_pos (by omega),
      decodeFrom_more _ _ 0 _ (by omega) rfl (by dsimp only; split <;> omega)
        (by dsimp only; split <;> omega),
      decodeFrom_last _ _ _ (by omega) rfl (by simp) (by dsimp only; omega)]
    dsimp only
    rw [show ((n / 4096 % 0x10 + 0xE0) % 0x10 * 0x40 + n / 64 % 0x40) * 0x40 + n % 0x40 = n by
      omega, hc]
  · next h1 h2 h3 =>
    simp only [List.cons_append, List.nil_append]
    rw [decodeFrom_lead _ _ (by omega), if_neg (by omega), if_neg (by omega), if_neg (by omega),
      if_pos (by omega),
      decodeFrom_more _ _ 1 _ (by omega) rfl (by dsimp only; split <;> omega)
        (by dsimp only; split <;> omega),
      decodeFrom_more _ _ 0 _ (by omega) rfl (by simp) (by dsimp only; omega),
      decodeFrom_last _ _ _ (by omega) rfl (by simp) (by dsimp only; omega)]
    dsimp only
    rw [show (((n / 262144 % 0x08 + 0xF0) % 0x08 * 0x40 + n / 4096 % 0x40) * 0x40 +
      n / 64 % 0x40) * 0x40 + n % 0x40 = n by omega, hc]

theorem decodeUtf8_encode (m : List Char) : decodeUtf8 (encodeUtf8 m) = some m := by
  unfold decodeUtf8 encodeUtf8
  induction m with
  | nil => rfl
  | cons c m ih => rw [List.flatMap_cons, decodeFrom_encodeChar, ih, Option.map_some]

/-! ## The WHATWG text encoder and decoder -/

def byteOrderMark : Char := Char.ofNat 0xFEFF

def stripBom : List Char → List Char
  | [] => []
  | c :: m => if c = byteOrderMark then m else c :: m

/-- `new TextEncoder().encode(s)`. -/
def encodeText (s : JsString) : List UInt8 := encodeUtf8 (scalars s)

theorem encodeText_inj {s t : JsString} : encodeText s = encodeText t ↔ scalars s = scalars t := by
  constructor
  · intro h
    have hdecode := decodeUtf8_encode (scalars s)
    rw [← encodeText, h, encodeText, decodeUtf8_encode] at hdecode
    exact (Option.some.inj hdecode).symm
  · intro h
    rw [encodeText, encodeText, h]

/-- `new TextDecoder("utf-8", { fatal: true }).decode(bytes)`, `none` for its `TypeError`. -/
def decodeText (bytes : List UInt8) : Option JsString :=
  (decodeUtf8 bytes).map fun m => utf16 (stripBom m)

theorem decodeText_encodeUtf8 (m : List Char) :
    decodeText (encodeUtf8 m) = some (utf16 (stripBom m)) := by
  rw [decodeText, decodeUtf8_encode, Option.map_some]

theorem stripBom_eq_self {m : List Char} : stripBom m = m ↔ m.head? ≠ some byteOrderMark := by
  cases m with
  | nil => simp [stripBom]
  | cons c m =>
    by_cases h : c = byteOrderMark
    · have hne : m ≠ c :: m := fun heq => by simpa using congrArg List.length heq
      simp [stripBom, ← h, hne]
    · simp [stripBom, h]

end Daloy.Unicode
