import Daloy.Mtls.DistinguishedNames

/-! # The common name of a certificate

Distinguished names in the spellings of RFC 4514, and of RFC 2253 where `cnFromDN` takes them, as
data; what the scan makes of them.

* `Dn.text`: the spelling. `Dn.commonName`: the common name that was spelled.
-/

namespace Daloy.Mtls
set_option autoImplicit false

open Daloy.Unicode Daloy.Text

/-! ## Spellings -/

/-- A character of a value: as it is, behind a backslash, or as the hex pairs of its bytes. -/
inductive Piece
  | raw (c : Char)
  | pair (c : Char) (special : c ∈ [',', '+', ';', '"', '\\', '<', '>', '=', '#', ' '])
  | hex (c : Char) (digits : List (UInt16 × UInt16))
    (spells : digits.map (fun d => escapedByte d.1 d.2) = (String.utf8EncodeChar c).map some)

namespace Piece

def char : Piece → Char
  | raw c => c
  | pair c _ => c
  | hex c _ _ => c

def text : Piece → JsString
  | raw c => utf16Char c
  | pair c _ => backslash :: utf16Char c
  | hex _ digits _ => digits.flatMap fun d => [backslash, d.1, d.2]

def Plain : Piece → Prop
  | raw c => c ∉ [',', ';', '+', '"', '\\']
  | _ => True

def Quotable : Piece → Prop
  | raw c => c ∉ ['"', '\\']
  | _ => True

def Starts : Piece → Prop
  | raw c => c ∉ [' ', '#']
  | _ => True

def Ends : Piece → Prop
  | raw c => c ≠ ' '
  | _ => True

end Piece

def textOf (pieces : List Piece) : JsString := pieces.flatMap Piece.text

/-- A value: without quotes, with them, or as the hex form of its encoding. -/
inductive Spelling
  | plain (pieces : List Piece) (ordinary : ∀ p ∈ pieces, p.Plain)
    (starts : ∀ p ∈ pieces.head?, p.Starts) (ends : ∀ p ∈ pieces.getLast?, p.Ends)
  | quoted (pieces : List Piece) (inside : ∀ p ∈ pieces, p.Quotable)
  | hexForm (digits : JsString) (hex : ∀ u ∈ digits, isHexDigit u = true)

def Spelling.text : Spelling → JsString
  | plain pieces _ _ _ => textOf pieces
  | quoted pieces _ => quote :: (textOf pieces ++ [quote])
  | hexForm digits _ => numberSign :: digits

def Spelling.value : Spelling → Option JsString
  | plain pieces _ _ _ => some (utf16 (pieces.map Piece.char))
  | quoted pieces _ => some (utf16 (pieces.map Piece.char))
  | hexForm _ _ => none

def isTypeUnit (u : UInt16) : Bool :=
  (0x30 ≤ u.toNat && u.toNat ≤ 0x39) || (0x41 ≤ u.toNat && u.toNat ≤ 0x5A) ||
    (0x61 ≤ u.toNat && u.toNat ≤ 0x7A) || u == 0x2D || u == 0x2E

/-- A type, in whichever case. -/
structure AttributeType where
  text : JsString
  ne_nil : text ≠ []
  units : ∀ u ∈ text, isTypeUnit u = true

/-- An assertion, with the spaces around its type and its value. -/
structure Ava where
  type : AttributeType
  value : Spelling
  beforeType : ℕ := 0
  behindType : ℕ := 0
  beforeValue : ℕ := 0
  behindValue : ℕ := 0

def spaces (n : ℕ) : JsString := List.replicate n space

def Ava.text (ava : Ava) : JsString :=
  spaces ava.beforeType ++ ava.type.text ++ spaces ava.behindType ++
    equalsSign :: (spaces ava.beforeValue ++ ava.value.text ++ spaces ava.behindValue)

def Ava.isCN (ava : Ava) : Bool := commonNameTypes.contains (toUpperCase ava.type.text)

inductive Separator
  | comma
  | semicolon
  | plus

def Separator.unit : Separator → UInt16
  | comma => 0x2C
  | semicolon => 0x3B
  | plus => 0x2B

/-- A distinguished name: at least one assertion. -/
structure Dn where
  first : Ava
  rest : List (Separator × Ava) := []

def restText (rest : List (Separator × Ava)) : JsString :=
  rest.flatMap fun e => e.1.unit :: e.2.text

def Dn.text (dn : Dn) : JsString := dn.first.text ++ restText dn.rest

def Dn.avas (dn : Dn) : List Ava := dn.first :: dn.rest.map Prod.snd

def Dn.commonName (dn : Dn) : Option JsString :=
  match dn.avas.filter Ava.isCN with
  | [ava] => ava.value.value
  | _ => none

/-! ## What the scan reads -/

/-- The characters that the decoder leaves; `inRun` behind a hex pair. -/
def kept : (inRun : Bool) → List Piece → List Char
  | _, [] => []
  | inRun, .hex c _ _ :: pieces =>
    (if inRun = false ∧ c = byteOrderMark then [] else [c]) ++ kept true pieces
  | _, .raw c :: pieces => c :: kept false pieces
  | _, .pair c _ :: pieces => c :: kept false pieces

def Unmarked : (inRun : Bool) → List Piece → Prop
  | _, [] => True
  | inRun, .hex c _ _ :: pieces => (inRun = false → c ≠ byteOrderMark) ∧ Unmarked true pieces
  | _, .raw _ :: pieces => Unmarked false pieces
  | _, .pair _ _ :: pieces => Unmarked false pieces

theorem length_kept_le (inRun : Bool) (pieces : List Piece) :
    (kept inRun pieces).length ≤ pieces.length := by
  induction pieces generalizing inRun with
  | nil => exact Nat.le_refl _
  | cons p pieces ih =>
    cases p with
    | raw c => exact Nat.succ_le_succ (ih false)
    | pair c special => exact Nat.succ_le_succ (ih false)
    | hex c digits spells =>
      have ih := ih true
      rw [kept, List.length_append, List.length_cons]
      split
      · rw [List.length_nil]
        omega
      · rw [List.length_singleton]
        omega

theorem kept_eq_iff (inRun : Bool) (pieces : List Piece) :
    kept inRun pieces = pieces.map Piece.char ↔ Unmarked inRun pieces := by
  induction pieces generalizing inRun with
  | nil => simp [kept, Unmarked]
  | cons p pieces ih =>
    cases p with
    | raw c => simp [kept, Unmarked, Piece.char, ih]
    | pair c special => simp [kept, Unmarked, Piece.char, ih]
    | hex c digits spells =>
      rw [kept, Unmarked, List.map_cons]
      by_cases hmark : inRun = false ∧ c = byteOrderMark
      · rw [if_pos hmark, List.nil_append]
        refine ⟨fun h => ?_, fun h => absurd hmark.2 (h.1 hmark.1)⟩
        have hle := length_kept_le true pieces
        rw [h, List.length_cons, List.length_map] at hle
        omega
      · rw [if_neg hmark, List.singleton_append, List.cons.injEq, ih]
        exact ⟨fun h => ⟨fun hrun hc => hmark ⟨hrun, hc⟩, h.2⟩, fun h => ⟨rfl, h.2⟩⟩

def Spelling.scanned : Spelling → Option JsString
  | plain pieces _ _ _ => some (utf16 (kept false pieces))
  | quoted pieces _ => some (utf16 (kept false pieces))
  | hexForm _ _ => none

def Spelling.Unmarked : Spelling → Prop
  | plain pieces _ _ _ => Mtls.Unmarked false pieces
  | quoted pieces _ => Mtls.Unmarked false pieces
  | hexForm _ _ => True

theorem Spelling.scanned_iff (spelling : Spelling) :
    spelling.scanned = spelling.value ↔ spelling.Unmarked := by
  have hpieces : ∀ pieces : List Piece,
      some (utf16 (kept false pieces)) = some (utf16 (pieces.map Piece.char)) ↔
        Mtls.Unmarked false pieces := by
    intro pieces
    rw [Option.some_inj, ← kept_eq_iff]
    exact ⟨fun h => utf16_injective h, fun h => by rw [h]⟩
  cases spelling with
  | plain pieces _ _ _ => exact hpieces pieces
  | quoted pieces _ => exact hpieces pieces
  | hexForm _ _ => exact ⟨fun _ => trivial, fun _ => rfl⟩

/-! ## Pieces -/

/-- The variables of the loop between two pieces, the pending bytes as characters. -/
structure Scan where
  value : JsString := []
  pending : List Char := []
  keep : ℕ := 0

namespace Scan

def settled (s : Scan) : JsString := s.value ++ utf16 (stripBom s.pending)

def settledKeep (s : Scan) : ℕ := if s.pending = [] then s.keep else s.settled.length

def step (s : Scan) : Piece → Scan
  | .raw c => { value := s.settled ++ utf16Char c, keep := s.settledKeep }
  | .pair c _ =>
    { value := s.settled ++ utf16Char c, keep := (s.settled ++ utf16Char c).length }
  | .hex c _ _ => { s with pending := s.pending ++ [c] }

def steps (s : Scan) (pieces : List Piece) : Scan := pieces.foldl step s

theorem stripBom_append {m : List Char} (h : m ≠ []) (c : Char) :
    stripBom (m ++ [c]) = stripBom m ++ [c] := by
  cases m with
  | nil => exact absurd rfl h
  | cons d m =>
    rw [List.cons_append, stripBom, stripBom]
    split <;> rfl

theorem settled_steps (s : Scan) (pieces : List Piece) :
    (s.steps pieces).settled = s.settled ++ utf16 (kept (s.pending ≠ []) pieces) := by
  induction pieces generalizing s with
  | nil => simp [steps, kept, utf16]
  | cons p pieces ih =>
    have hsteps : s.steps (p :: pieces) = (s.step p).steps pieces := rfl
    rw [hsteps, ih]
    cases p with
    | raw c => simp [step, settled, kept, stripBom, utf16]
    | pair c special => simp [step, settled, kept, stripBom, utf16]
    | hex c digits spells =>
      rw [kept]
      by_cases hpending : s.pending = []
      · by_cases hmark : c = byteOrderMark
        · simp [step, settled, hpending, hmark, stripBom, utf16]
        · simp [step, settled, hpending, hmark, stripBom, utf16]
      · simp [step, settled, hpending, stripBom_append hpending, utf16]

/-- The scanner of `scanValue` with these variables. -/
def run (quoted : Bool) (s : Scan) (rest : JsString) : Option Scanned :=
  scanValue quoted s.value (encodeUtf8 s.pending) s.keep rest

end Scan

theorem encodeUtf8_eq_nil {m : List Char} : encodeUtf8 m = [] ↔ m = [] := by
  constructor
  · intro h
    have hdecode := decodeUtf8_encode m
    rw [h] at hdecode
    exact (Option.some.inj hdecode).symm
  · rintro rfl
    rfl

theorem flush_encode (value : JsString) (m : List Char) :
    flush value (encodeUtf8 m) = some (value ++ utf16 (stripBom m)) := by
  rw [flush]
  by_cases hm : m = []
  · rw [if_pos (encodeUtf8_eq_nil.mpr hm), hm]
    simp [stripBom, utf16]
  · rw [if_neg (mt encodeUtf8_eq_nil.mp hm), decodeText_encodeUtf8]
    rfl

def isOrdinary (quoted : Bool) (u : UInt16) : Bool :=
  u ≠ backslash && u ≠ quote && (quoted || !isSeparator u)

theorem scanValue_ordinary {quoted : Bool} {u : UInt16} (hu : isOrdinary quoted u = true)
    {value settled : JsString} {bytes : List UInt8} (keep : ℕ) (rest : JsString)
    (hflush : flush value bytes = some settled) :
    scanValue quoted value bytes keep (u :: rest) =
      scanValue quoted (settled ++ [u]) [] (if bytes = [] then keep else settled.length) rest := by
  simp only [isOrdinary, ne_eq, Bool.and_eq_true, decide_eq_true_eq, Bool.or_eq_true,
    Bool.not_eq_true'] at hu
  obtain ⟨⟨hback, hquote⟩, hsep⟩ := hu
  rw [scanValue_other hback hflush]
  cases quoted with
  | true =>
    dsimp only
    rw [if_pos rfl, if_neg hquote]
  | false =>
    dsimp only
    rw [if_neg (by simp), if_neg (by simpa using hsep), if_neg hquote]

theorem scanValue_units {quoted : Bool} {units : JsString}
    (h : ∀ u ∈ units, isOrdinary quoted u = true) (value : JsString) (keep : ℕ) (rest : JsString) :
    scanValue quoted value [] keep (units ++ rest) =
      scanValue quoted (value ++ units) [] keep rest := by
  induction units generalizing value with
  | nil => rw [List.nil_append, List.append_nil]
  | cons u units ih =>
    rw [List.cons_append, scanValue_ordinary (h u List.mem_cons_self) _ _ (if_pos rfl),
      if_pos rfl, ih fun v hv => h v (List.mem_cons_of_mem _ hv), List.append_assoc]
    rfl

theorem utf16Char_ne_nil (c : Char) : utf16Char c ≠ [] := by
  rw [utf16Char]
  split <;> simp

theorem char_of_mem_utf16Char {c : Char} {u : UInt16} (h : u ∈ utf16Char c) (hu : u.toNat < 0x80) :
    c = Char.ofNat u.toNat := by
  have hlt := toNat_lt c
  rw [utf16Char] at h
  split at h
  · obtain rfl := List.mem_singleton.mp h
    rw [UInt16.toNat_ofNat_of_lt' (by assumption), Char.ofNat_toNat]
  · simp only [List.mem_cons, List.not_mem_nil, or_false] at h
    obtain rfl | rfl := h
    all_goals
      rw [UInt16.toNat_ofNat_of_lt' (by show _ < 65536; omega)] at hu
      omega

theorem isOrdinary_plain {c : Char} (h : (Piece.raw c).Plain) :
    ∀ u ∈ utf16Char c, isOrdinary false u = true := by
  intro u hu
  by_contra hspecial
  have hmem : u ∈ js ",;+\"\\" := by
    simp only [isOrdinary, isSeparator, ne_eq, Bool.and_eq_true, decide_eq_true_eq, Bool.false_or,
      Bool.not_eq_true', decide_eq_false_iff_not] at hspecial
    have hunits : ∀ v, v ∉ js ",;+\"\\" → (¬ v = backslash ∧ ¬ v = quote) ∧ v ∉ js ",;+" := by
      intro v hv
      have hlist : js ",;+\"\\" = js ",;+" ++ [quote, backslash] := by decide
      rw [hlist] at hv
      simp only [List.mem_append, List.mem_cons, List.not_mem_nil, or_false, not_or] at hv
      exact ⟨⟨hv.2.2, hv.2.1⟩, hv.1⟩
    by_contra hnot
    exact hspecial (hunits u hnot)
  have hall : ∀ v ∈ js ",;+\"\\", v.toNat < 0x80 ∧
      Char.ofNat v.toNat ∈ [',', ';', '+', '"', '\\'] := by decide
  obtain ⟨hascii, hchar⟩ := hall u hmem
  rw [← char_of_mem_utf16Char hu hascii] at hchar
  exact h hchar

theorem isOrdinary_quotable {c : Char} (h : (Piece.raw c).Quotable) :
    ∀ u ∈ utf16Char c, isOrdinary true u = true := by
  intro u hu
  by_contra hspecial
  have hmem : u ∈ js "\"\\" := by
    have hlist : js "\"\\" = [quote, backslash] := by decide
    simp only [isOrdinary, ne_eq, Bool.and_eq_true, decide_eq_true_eq, Bool.true_or,
      and_true, not_and, not_not] at hspecial
    rw [hlist]
    by_cases hback : u = backslash
    · simp [hback]
    · simp [hspecial hback]
  have hall : ∀ v ∈ js "\"\\", v.toNat < 0x80 ∧ Char.ofNat v.toNat ∈ ['"', '\\'] := by decide
  obtain ⟨hascii, hchar⟩ := hall u hmem
  rw [← char_of_mem_utf16Char hu hascii] at hchar
  exact h hchar

def Piece.Allowed (quoted : Bool) (p : Piece) : Prop := if quoted then p.Quotable else p.Plain

theorem scan_pairs {quoted : Bool} (digits : List (UInt16 × UInt16)) {octets : List UInt8}
    (h : digits.map (fun d => escapedByte d.1 d.2) = octets.map some) (value : JsString)
    (bytes : List UInt8) (keep : ℕ) (rest : JsString) :
    scanValue quoted value bytes keep
      (digits.flatMap (fun d => [backslash, d.1, d.2]) ++ rest) =
      scanValue quoted value (bytes ++ octets) keep rest := by
  induction digits generalizing octets bytes with
  | nil =>
    obtain rfl : octets = [] := by simpa using h.symm
    rw [List.append_nil]
    rfl
  | cons d digits ih =>
    cases octets with
    | nil => simp at h
    | cons b octets =>
      rw [List.map_cons, List.map_cons] at h
      obtain ⟨hbyte, hrest⟩ := List.cons.inj h
      have hcons : (d :: digits).flatMap (fun d => [backslash, d.1, d.2]) ++ rest =
          backslash :: d.1 :: d.2 ::
            (digits.flatMap (fun d => [backslash, d.1, d.2]) ++ rest) := rfl
      rw [hcons, scanValue_hex hbyte, ih hrest, List.append_assoc]
      rfl

theorem run_piece {quoted : Bool} (s : Scan) {p : Piece} (h : p.Allowed quoted)
    (rest : JsString) : s.run quoted (p.text ++ rest) = (s.step p).run quoted rest := by
  cases p with
  | raw c =>
    have hunits : ∀ u ∈ utf16Char c, isOrdinary quoted u = true := by
      cases quoted with
      | true => exact isOrdinary_quotable h
      | false => exact isOrdinary_plain h
    obtain ⟨u, units, hchar⟩ := List.exists_cons_of_ne_nil (utf16Char_ne_nil c)
    rw [hchar, List.forall_mem_cons] at hunits
    rw [Piece.text, Scan.run, Scan.run, Scan.step, hchar, List.cons_append,
      scanValue_ordinary hunits.1 _ _ (flush_encode _ _), scanValue_units hunits.2,
      List.append_assoc, List.singleton_append]
    simp only [Scan.settledKeep, encodeUtf8_eq_nil]
    rfl
  | pair c special =>
    have hall : ∀ d ∈ [',', '+', ';', '"', '\\', '<', '>', '=', '#', ' '],
        ∃ u, utf16Char d = [u] ∧ isHexDigit u = false ∧ isSpecial u = true := by
      intro d hd
      simp only [List.mem_cons, List.not_mem_nil, or_false] at hd
      rcases hd with rfl | rfl | rfl | rfl | rfl | rfl | rfl | rfl | rfl | rfl <;>
        exact ⟨_, rfl, rfl, rfl⟩
    obtain ⟨u, hchar, hhex, hspecial⟩ := hall c special
    rw [Piece.text, Scan.run, Scan.run, Scan.step, hchar, List.cons_append, List.singleton_append,
      scanValue_special hhex hspecial (flush_encode _ _)]
    rfl
  | hex c digits spells =>
    rw [Piece.text, Scan.run, Scan.run, Scan.step, scan_pairs digits spells]
    simp [encodeUtf8]

theorem run_pieces {quoted : Bool} (s : Scan) {pieces : List Piece}
    (h : ∀ p ∈ pieces, p.Allowed quoted) (rest : JsString) :
    s.run quoted (textOf pieces ++ rest) = (s.steps pieces).run quoted rest := by
  induction pieces generalizing s with
  | nil => rfl
  | cons p pieces ih =>
    rw [List.forall_mem_cons] at h
    rw [textOf, List.flatMap_cons, List.append_assoc, run_piece s h.1, ← textOf, ih _ h.2]
    rfl

/-! ## Where the loop stops -/

def Stops (tail : JsString) : Prop := ∀ u ∈ tail.head?, isSeparator u = true

theorem run_stop (s : Scan) {tail : JsString} (h : Stops tail) :
    ∃ scanned, s.run false tail = some scanned ∧
      flush scanned.value scanned.bytes = some s.settled ∧
      (if scanned.bytes = [] then scanned.keep else s.settled.length) = s.settledKeep ∧
      scanned.rest = tail := by
  cases tail with
  | nil =>
    refine ⟨_, rfl, flush_encode _ _, ?_, rfl⟩
    simp only [Scan.settledKeep, encodeUtf8_eq_nil]
  | cons u tail =>
    have hu : isSeparator u = true := h u rfl
    have hback : u ≠ backslash := by
      rintro rfl
      exact absurd hu (by decide)
    refine ⟨{ value := s.settled, bytes := [], keep := s.settledKeep, closed := false,
              rest := u :: tail }, ?_, if_pos rfl, if_pos rfl, rfl⟩
    rw [Scan.run, scanValue_other hback (flush_encode _ _)]
    dsimp only
    rw [if_neg (by simp), if_pos hu]
    simp only [Scan.settledKeep, encodeUtf8_eq_nil]
    rfl

theorem run_quote (s : Scan) (tail : JsString) :
    ∃ keep, s.run true (quote :: tail) =
      some { value := s.settled, bytes := [], keep, closed := true, rest := tail } := by
  refine ⟨s.settledKeep, ?_⟩
  rw [Scan.run, scanValue_other (by decide) (flush_encode _ _)]
  simp only [Scan.settledKeep, encodeUtf8_eq_nil, if_true]
  rfl

/-! ## Trailing spaces -/

theorem Scan.settledKeep_le {s : Scan} (h : s.keep ≤ s.value.length) :
    s.settledKeep ≤ s.settled.length := by
  rw [settledKeep]
  split
  · rw [settled, List.length_append]
    omega
  · exact Nat.le_refl _

theorem Scan.keep_le_steps {s : Scan} (h : s.keep ≤ s.value.length) (pieces : List Piece) :
    (s.steps pieces).keep ≤ (s.steps pieces).value.length := by
  induction pieces generalizing s with
  | nil => exact h
  | cons p pieces ih =>
    refine ih (s := s.step p) ?_
    cases p with
    | raw c =>
      have hle := settledKeep_le h
      simp only [step, List.length_append]
      omega
    | pair c special => exact Nat.le_refl _
    | hex c digits spells => exact h

theorem Scan.drop_settledKeep {pieces : List Piece} (h : ∀ p ∈ pieces.getLast?, p.Ends) :
    ∀ u ∈ ((({} : Scan).steps pieces).settled.drop (({} : Scan).steps pieces).settledKeep).getLast?,
      u ≠ space := by
  obtain rfl | ⟨front, p, rfl⟩ := List.eq_nil_or_concat' pieces
  · simp [steps, settled, utf16, stripBom]
  have hends : p.Ends := h p (by simp)
  have hsteps : ({} : Scan).steps (front ++ [p]) = (({} : Scan).steps front).step p := by
    rw [steps, List.foldl_append]
    rfl
  have hkeep := settledKeep_le (keep_le_steps (s := {}) (Nat.le_refl _) front)
  rw [hsteps]
  generalize ({} : Scan).steps front = s at hkeep
  cases p with
  | raw c =>
    have hsettled : (s.step (.raw c)).settled = s.settled ++ utf16Char c := by
      simp [step, settled, stripBom, utf16]
    have hsame : (s.step (.raw c)).settledKeep = s.settledKeep := if_pos rfl
    rw [hsettled, hsame, List.drop_append_of_le_length hkeep]
    intro u hu
    have hmem : u ∈ utf16Char c := by
      rw [List.getLast?_append_of_ne_nil _ (utf16Char_ne_nil c)] at hu
      exact List.mem_of_getLast? hu
    rintro rfl
    exact hends (char_of_mem_utf16Char hmem (by decide))
  | pair c special =>
    have hsettled : (s.step (.pair c special)).settled = s.settled ++ utf16Char c := by
      simp [step, settled, stripBom, utf16]
    have hall : (s.step (.pair c special)).settledKeep = (s.settled ++ utf16Char c).length :=
      if_pos rfl
    rw [hsettled, hall, List.drop_length]
    simp
  | hex c digits spells =>
    have hall : (s.step (.hex c digits spells)).settledKeep =
        (s.step (.hex c digits spells)).settled.length := if_neg (by simp [step])
    rw [hall, List.drop_length]
    simp

def blanks (n : ℕ) : List Piece := List.replicate n (.raw ' ')

theorem textOf_blanks (n : ℕ) : textOf (blanks n) = spaces n := by
  induction n with
  | zero => rfl
  | succ n ih =>
    rw [blanks, List.replicate_succ, textOf, List.flatMap_cons, ← textOf, ← blanks, ih, spaces,
      spaces, List.replicate_succ]
    rfl

theorem Scan.steps_blanks (s : Scan) (n : ℕ) :
    (s.steps (blanks n)).settled = s.settled ++ spaces n ∧
      (s.steps (blanks n)).settledKeep = s.settledKeep := by
  induction n generalizing s with
  | zero => exact ⟨(List.append_nil _).symm, rfl⟩
  | succ n ih =>
    have hsteps : s.steps (blanks (n + 1)) = (s.step (.raw ' ')).steps (blanks n) := rfl
    obtain ⟨hsettled, hkeep⟩ := ih (s.step (.raw ' '))
    have hchar : utf16Char ' ' = [space] := by decide
    have hone : (s.step (.raw ' ')).settled = s.settled ++ [space] := by
      simp [step, settled, stripBom, utf16, hchar]
    have hsame : (s.step (.raw ' ')).settledKeep = s.settledKeep := if_pos rfl
    rw [hsteps, hsettled, hkeep, hone, hsame, List.append_assoc]
    exact ⟨rfl, rfl⟩

theorem rdropWhile_spaces (s : JsString) (n : ℕ) :
    (s ++ spaces n).rdropWhile (· == space) = s.rdropWhile (· == space) := by
  induction n with
  | zero => rw [spaces, List.replicate_zero, List.append_nil]
  | succ n ih =>
    rw [spaces, List.replicate_succ', ← List.append_assoc, List.rdropWhile_concat_pos _ _ _ (by simp)]
    exact ih

theorem trimEnd_spaces {keep : ℕ} {value : JsString} (hle : keep ≤ value.length)
    (h : ∀ u ∈ (value.drop keep).getLast?, u ≠ space) (n : ℕ) :
    trimEnd keep (value ++ spaces n) = value := by
  have hlast : (value.drop keep).rdropWhile (· == space) = value.drop keep := by
    rw [List.rdropWhile_eq_self_iff]
    intro hne
    have hu := h _ (List.getLast?_eq_some_getLast hne)
    simpa using hu
  rw [trimEnd, List.take_append_of_le_length hle, List.drop_append_of_le_length hle,
    rdropWhile_spaces, hlast, List.take_append_drop]

/-! ## Values -/

theorem dropWhile_spaces (n : ℕ) (s : JsString) :
    (spaces n ++ s).dropWhile (· == space) = s.dropWhile (· == space) := by
  rw [List.dropWhile_append_of_pos]
  intro u hu
  rw [List.eq_of_mem_replicate hu]
  rfl

theorem dropWhile_of_head {s : JsString} (h : ∀ u ∈ s.head?, u ≠ space) :
    s.dropWhile (· == space) = s := by
  cases s with
  | nil => rfl
  | cons u s => rw [List.dropWhile_cons_of_neg (by simpa using h u rfl)]

theorem Stops.head {tail : JsString} (h : Stops tail) :
    ∀ u ∈ tail.head?, u ≠ space ∧ u ≠ quote ∧ u ≠ numberSign := by
  intro u hu
  have hall : ∀ v ∈ js ",;+", v ≠ space ∧ v ≠ quote ∧ v ≠ numberSign := by decide
  exact hall u (by simpa [isSeparator] using h u hu)

theorem readValue_pieces {isCN : Bool} {pieces : List Piece} (h : ∀ p ∈ pieces, p.Plain)
    {tail : JsString} (htail : Stops tail) (n : ℕ)
    (hhead : ∀ u ∈ (textOf pieces ++ tail).head?,
      u ≠ space ∧ u ≠ quote ∧ (isCN = true → u ≠ numberSign)) :
    readValue isCN (spaces n ++ (textOf pieces ++ tail)) =
      some (trimEnd (({} : Scan).steps pieces).settledKeep (({} : Scan).steps pieces).settled,
        tail) := by
  obtain ⟨scanned, hrun, hflush, hkeep, hrest⟩ := run_stop (({} : Scan).steps pieces) htail
  rw [← @run_pieces false {} _ h] at hrun
  have hquote : ¬ (textOf pieces ++ tail).head? = some quote := fun hq => (hhead _ hq).2.1 rfl
  rw [readValue, dropWhile_spaces, dropWhile_of_head fun u hu => (hhead u hu).1,
    if_neg fun hboth => (hhead _ hboth.2.1).2.2 hboth.2.2 rfl]
  simp only [hquote, decide_false, if_false]
  have hscan : scanValue false [] [] 0 (textOf pieces ++ tail) = some scanned := hrun
  rw [hscan]
  simp only [Option.bind_eq_bind, Option.bind_some, hflush]
  simp [hkeep, hrest]

theorem Piece.head_text {p : Piece} (hplain : p.Plain) (hstarts : p.Starts) (rest : JsString) :
    ∀ u ∈ (p.text ++ rest).head?, u ≠ space ∧ u ≠ quote ∧ u ≠ numberSign := by
  have hback : backslash ≠ space ∧ backslash ≠ quote ∧ backslash ≠ numberSign := by decide
  intro u hu
  cases p with
  | raw c =>
    have hmem : u ∈ utf16Char c := by
      obtain ⟨v, units, hchar⟩ := List.exists_cons_of_ne_nil (utf16Char_ne_nil c)
      rw [text, hchar, List.cons_append] at hu
      rw [hchar, ← Option.some.inj hu]
      exact List.mem_cons_self
    refine ⟨?_, ?_, ?_⟩
    · rintro rfl
      exact hstarts (by rw [char_of_mem_utf16Char hmem (by decide)]; decide)
    · rintro rfl
      exact hplain (by rw [char_of_mem_utf16Char hmem (by decide)]; decide)
    · rintro rfl
      exact hstarts (by rw [char_of_mem_utf16Char hmem (by decide)]; decide)
  | pair c special =>
    obtain rfl : backslash = u := Option.some.inj hu
    exact hback
  | hex c digits spells =>
    cases digits with
    | nil =>
      have hnil : String.utf8EncodeChar c = [] := by simpa using spells.symm
      have hone : encodeUtf8 [c] = [] := by rw [encodeUtf8, List.flatMap_singleton, hnil]
      exact absurd (encodeUtf8_eq_nil.mp hone) (by simp)
    | cons d digits =>
      obtain rfl : backslash = u := Option.some.inj hu
      exact hback

theorem textOf_append (a b : List Piece) : textOf (a ++ b) = textOf a ++ textOf b :=
  List.flatMap_append

theorem Scan.settled_start (pieces : List Piece) :
    (({} : Scan).steps pieces).settled = utf16 (kept false pieces) := by
  rw [settled_steps]
  simp [settled, stripBom, utf16]

theorem readValue_plain {pieces : List Piece} (ordinary : ∀ p ∈ pieces, p.Plain)
    (starts : ∀ p ∈ pieces.head?, p.Starts) (ends : ∀ p ∈ pieces.getLast?, p.Ends)
    {tail : JsString} (htail : Stops tail) (a b : ℕ) (isCN : Bool) :
    readValue isCN (spaces a ++ (textOf pieces ++ spaces b ++ tail)) =
      some (utf16 (kept false pieces), tail) := by
  cases pieces with
  | nil =>
    have hread := @readValue_pieces isCN [] (by simp) _ htail (a + b)
      (fun u hu => ⟨(htail.head u hu).1, (htail.head u hu).2.1, fun _ => (htail.head u hu).2.2⟩)
    rw [spaces, List.replicate_add, List.append_assoc] at hread
    exact hread
  | cons p pieces =>
    have hblanks : ∀ q ∈ (p :: pieces) ++ blanks b, q.Plain := by
      intro q hq
      obtain hq | hq := List.mem_append.mp hq
      · exact ordinary q hq
      · rw [List.eq_of_mem_replicate hq]
        show ' ' ∉ _
        decide
    have htext : textOf ((p :: pieces) ++ blanks b) ++ tail =
        p.text ++ (textOf pieces ++ spaces b ++ tail) := by
      rw [textOf_append, textOf_blanks, textOf, List.flatMap_cons, ← textOf]
      simp only [List.append_assoc]
    have hhead := Piece.head_text (ordinary p List.mem_cons_self) (starts p rfl)
      (textOf pieces ++ spaces b ++ tail)
    rw [← htext] at hhead
    have hread := @readValue_pieces isCN _ hblanks _ htail a
      fun u hu => ⟨(hhead u hu).1, (hhead u hu).2.1, fun _ => (hhead u hu).2.2⟩
    have hsteps : ({} : Scan).steps ((p :: pieces) ++ blanks b) =
        (({} : Scan).steps (p :: pieces)).steps (blanks b) := List.foldl_append
    obtain ⟨hsettled, hkeep⟩ := Scan.steps_blanks (({} : Scan).steps (p :: pieces)) b
    rw [hsteps, hsettled, hkeep, trimEnd_spaces
      (Scan.settledKeep_le (Scan.keep_le_steps (s := {}) (Nat.le_refl _) _))
      (Scan.drop_settledKeep ends), Scan.settled_start, textOf_append, textOf_blanks] at hread
    exact hread

theorem readValue_quoted {pieces : List Piece} (inside : ∀ p ∈ pieces, p.Quotable)
    {tail : JsString} (htail : Stops tail) (a b : ℕ) (isCN : Bool) :
    readValue isCN (spaces a ++ (quote :: (textOf pieces ++ [quote]) ++ spaces b ++ tail)) =
      some (utf16 (kept false pieces), tail) := by
  obtain ⟨keep, hrun⟩ := run_quote (({} : Scan).steps pieces) (spaces b ++ tail)
  rw [← @run_pieces true {} _ inside] at hrun
  have hscan : scanValue true [] [] 0 (textOf pieces ++ quote :: (spaces b ++ tail)) = some
      { value := (({} : Scan).steps pieces).settled, bytes := [], keep, closed := true,
        rest := spaces b ++ tail } := hrun
  have htext : quote :: (textOf pieces ++ [quote]) ++ spaces b ++ tail =
      quote :: (textOf pieces ++ quote :: (spaces b ++ tail)) := by simp
  have hrest : (spaces b ++ tail).dropWhile (· == space) = tail := by
    rw [dropWhile_spaces, dropWhile_of_head fun u hu => (htail.head u hu).1]
  have hstops : tail.head?.all isSeparator = true := by
    rw [Option.all_eq_true]
    exact fun u hu => htail u hu
  rw [readValue, htext, dropWhile_spaces, List.dropWhile_cons_of_neg (by decide),
    if_neg (by simp)]
  simp only [List.head?_cons, decide_true, if_true, List.tail_cons]
  rw [hscan]
  simp [flush, hrest, hstops, Scan.settled_start]

theorem hexForm_pieces {digits : JsString} (h : ∀ u ∈ digits, isHexDigit u = true) :
    ∃ pieces : List Piece, (∀ p ∈ pieces, p.Plain) ∧ textOf pieces = numberSign :: digits := by
  have hall : ∀ k : Fin 0x80, isHexDigit (UInt16.ofNat k.val) = true →
      (Piece.raw (Char.ofNat k.val)).Plain ∧
        utf16Char (Char.ofNat k.val) = [UInt16.ofNat k.val] := by
    intro k
    show _ → Char.ofNat k.val ∉ _ ∧ _
    revert k
    decide
  have hdigit : ∀ u, isHexDigit u = true → (Piece.raw (Char.ofNat u.toNat)).Plain ∧
      utf16Char (Char.ofNat u.toNat) = [u] := by
    intro u hu
    have hlt : u.toNat < 0x80 := by
      rw [isHexDigit, hexDigit] at hu
      split at hu
      · omega
      · split at hu
        · omega
        · split at hu
          · omega
          · simp at hu
    have hk := hall ⟨u.toNat, hlt⟩
    rw [UInt16.ofNat_toNat] at hk
    exact hk hu
  refine ⟨.raw '#' :: digits.map fun u => .raw (Char.ofNat u.toNat), ?_, ?_⟩
  · rw [List.forall_mem_cons]
    refine ⟨by show '#' ∉ _; decide, fun p hp => ?_⟩
    obtain ⟨u, hu, rfl⟩ := List.mem_map.mp hp
    exact (hdigit u (h u hu)).1
  · rw [textOf, List.flatMap_cons]
    have hsign : Piece.text (.raw '#') = [numberSign] := by decide
    rw [hsign, List.singleton_append, List.flatMap_map]
    congr 1
    induction digits with
    | nil => rfl
    | cons u digits ih =>
      rw [List.forall_mem_cons] at h
      rw [List.flatMap_cons, ih h.2, Piece.text, (hdigit u h.1).2]
      rfl

theorem readValue_hexForm {digits : JsString} (h : ∀ u ∈ digits, isHexDigit u = true)
    {tail : JsString} (htail : Stops tail) (a b : ℕ) :
    readValue true (spaces a ++ (numberSign :: digits ++ spaces b ++ tail)) = none ∧
      ∃ value, readValue false (spaces a ++ (numberSign :: digits ++ spaces b ++ tail)) =
        some (value, tail) := by
  constructor
  · rw [readValue, dropWhile_spaces, List.cons_append, List.cons_append,
      List.dropWhile_cons_of_neg (by decide), if_pos (by simp [numberSign, quote])]
  · obtain ⟨pieces, hplain, htext⟩ := hexForm_pieces h
    have hblanks : ∀ q ∈ pieces ++ blanks b, q.Plain := by
      intro q hq
      obtain hq | hq := List.mem_append.mp hq
      · exact hplain q hq
      · rw [List.eq_of_mem_replicate hq]
        show ' ' ∉ _
        decide
    have hread := @readValue_pieces false _ hblanks _ htail a (by
      rw [textOf_append, htext]
      intro u hu
      obtain rfl : numberSign = u := Option.some.inj hu
      exact ⟨by decide, by decide, by simp⟩)
    rw [textOf_append, htext, textOf_blanks] at hread
    exact ⟨_, hread⟩

/-! ## Assertions -/

theorem isTypeUnit_upper : ∀ u, isTypeUnit u = true →
    isWhitespace u = false ∧ u ≠ equalsSign ∧ upperUnit u ∉ js "\\\",+;" := by
  have hall : ∀ k : Fin 0x80, isTypeUnit (UInt16.ofNat k.val) = true →
      isWhitespace (UInt16.ofNat k.val) = false ∧ UInt16.ofNat k.val ≠ equalsSign ∧
        upperUnit (UInt16.ofNat k.val) ∉ js "\\\",+;" := by decide
  intro u hu
  have hlt : u.toNat < 0x80 := by
    simp only [isTypeUnit, Bool.or_eq_true, Bool.and_eq_true, decide_eq_true_eq, beq_iff_eq] at hu
    obtain (((h | h) | h) | rfl) | rfl := hu
    · omega
    · omega
    · omega
    · decide
    · decide
  have hk := hall ⟨u.toNat, hlt⟩
  rw [UInt16.ofNat_toNat] at hk
  exact hk hu

theorem trim_spaces (a b : ℕ) {s : JsString} (hne : s ≠ [])
    (h : ∀ u ∈ s, isWhitespace u = false) : trim (spaces a ++ s ++ spaces b) = s := by
  have hspace : ∀ n, ∀ u ∈ spaces n, isWhitespace u = true := by
    intro n u hu
    rw [List.eq_of_mem_replicate hu]
    decide
  obtain ⟨first, rest, rfl⟩ := List.exists_cons_of_ne_nil hne
  have hback : ∀ n, ((first :: rest) ++ spaces n).rdropWhile isWhitespace = first :: rest := by
    intro n
    induction n with
    | zero =>
      rw [spaces, List.replicate_zero, List.append_nil, List.rdropWhile_eq_self_iff]
      intro hne'
      simp [h _ (List.getLast_mem hne')]
    | succ n ih =>
      rw [spaces, List.replicate_succ', ← List.append_assoc,
        List.rdropWhile_concat_pos _ _ _ (by decide)]
      exact ih
  rw [trim, List.append_assoc, List.dropWhile_append_of_pos (hspace a), List.cons_append,
    List.dropWhile_cons_of_neg (by simp [h first List.mem_cons_self]), ← List.cons_append, hback]

theorem avaLoop_ava (ava : Ava) (fuel : ℕ) (cn : Option JsString) (tail : JsString) :
    avaLoop (fuel + 1) cn (ava.text ++ tail) =
      match readValue ava.isCN
        (spaces ava.beforeValue ++ (ava.value.text ++ spaces ava.behindValue ++ tail)) with
      | none => none
      | some (value, rest) =>
        if ava.isCN ∧ cn.isSome then none
        else
          let cn := if ava.isCN then some value else cn
          match rest with
          | [] => cn
          | [_] => none
          | _ :: text => avaLoop fuel cn text := by
  have hfront : ∀ u ∈ spaces ava.beforeType ++ ava.type.text ++ spaces ava.behindType,
      decide (u ≠ equalsSign) = true := by
    intro u hu
    rw [List.mem_append, List.mem_append] at hu
    obtain (hu | hu) | hu := hu
    · rw [List.eq_of_mem_replicate hu]
      decide
    · simp [(isTypeUnit_upper u (ava.type.units u hu)).2.1]
    · rw [List.eq_of_mem_replicate hu]
      decide
  have htext : ava.text ++ tail =
      (spaces ava.beforeType ++ ava.type.text ++ spaces ava.behindType) ++ equalsSign ::
        (spaces ava.beforeValue ++ (ava.value.text ++ spaces ava.behindValue ++ tail)) := by
    rw [Ava.text]
    simp only [List.append_assoc, List.cons_append]
  have htype : typeOf (spaces ava.beforeType ++ ava.type.text ++ spaces ava.behindType) =
      toUpperCase ava.type.text := by
    rw [typeOf, trim_spaces _ _ ava.type.ne_nil fun u hu =>
      (isTypeUnit_upper u (ava.type.units u hu)).1]
  have hwell : isMalformedType (toUpperCase ava.type.text) = false := by
    rw [isMalformedType, Bool.or_eq_false_iff, List.any_eq_false]
    refine ⟨by simp [toUpperCase, ava.type.ne_nil], fun u hu => ?_⟩
    obtain ⟨v, hv, rfl⟩ := List.mem_map.mp hu
    simp [(isTypeUnit_upper v (ava.type.units v hv)).2.2]
  rw [htext, avaLoop, List.dropWhile_append_of_pos hfront,
    List.takeWhile_append_of_pos hfront, List.dropWhile_cons_of_neg (by simp),
    List.takeWhile_cons_of_neg (by simp), List.append_nil]
  dsimp only
  rw [htype, if_neg (by simp [hwell])]
  rfl

/-- What the loop collects: the value of the one common name, if it can be read. -/
def collect : Option JsString → List Ava → Option JsString
  | cn, [] => cn
  | cn, ava :: avas =>
    if ava.isCN then
      match cn, ava.value.scanned with
      | none, some value => collect (some value) avas
      | _, _ => none
    else collect cn avas

theorem collect_cons (cn : Option JsString) (ava : Ava) (avas : List Ava) :
    collect cn (ava :: avas) =
      if ava.isCN then
        match cn, ava.value.scanned with
        | none, some value => collect (some value) avas
        | _, _ => none
      else collect cn avas := rfl

theorem isSeparator_unit (separator : Separator) : isSeparator separator.unit = true := by
  cases separator <;> decide

theorem stops_restText (rest : List (Separator × Ava)) : Stops (restText rest) := by
  cases rest with
  | nil => simp [Stops, restText]
  | cons e rest =>
    intro u hu
    obtain rfl : e.1.unit = u := Option.some.inj hu
    exact isSeparator_unit e.1

theorem Ava.text_ne_nil (ava : Ava) : ava.text ≠ [] := by simp [text]

theorem avaLoop_step (ava : Ava) (rest : List (Separator × Ava)) (fuel : ℕ)
    (cn : Option JsString) :
    avaLoop (fuel + 1) cn (ava.text ++ restText rest) =
      let next := fun cn =>
        match rest with
        | [] => cn
        | e :: rest => avaLoop fuel cn (e.2.text ++ restText rest)
      if ava.isCN then
        match cn, ava.value.scanned with
        | none, some value => next (some value)
        | _, _ => none
      else next cn := by
  have hnext : ∀ cn, (match restText rest with
      | [] => cn
      | [_] => none
      | _ :: text => avaLoop fuel cn text) =
        match rest with
        | [] => cn
        | e :: rest => avaLoop fuel cn (e.2.text ++ restText rest) := by
    intro cn
    cases rest with
    | nil => rfl
    | cons e rest =>
      obtain ⟨u, text, htext⟩ := List.exists_cons_of_ne_nil e.2.text_ne_nil
      have hrest : restText (e :: rest) = e.1.unit :: (e.2.text ++ restText rest) := rfl
      rw [hrest, htext, List.cons_append]
      dsimp only
      rw [htext, List.cons_append]
  have hread : ∀ value, ava.value.scanned = some value →
      readValue ava.isCN (spaces ava.beforeValue ++
        (ava.value.text ++ spaces ava.behindValue ++ restText rest)) =
        some (value, restText rest) := by
    intro value hvalue
    cases hspelling : ava.value with
    | plain pieces ordinary starts ends =>
      rw [hspelling] at hvalue
      rw [← Option.some.inj hvalue]
      exact readValue_plain ordinary starts ends (stops_restText rest) _ _ _
    | quoted pieces inside =>
      rw [hspelling] at hvalue
      rw [← Option.some.inj hvalue]
      exact readValue_quoted inside (stops_restText rest) _ _ _
    | hexForm digits hex =>
      rw [hspelling] at hvalue
      cases hvalue
  rw [avaLoop_ava]
  cases hscanned : ava.value.scanned with
  | some value =>
    rw [hread value hscanned]
    dsimp only
    rw [hnext]
    cases hCN : ava.isCN with
    | true => cases cn <;> simp
    | false => simp
  | none =>
    cases hspelling : ava.value with
    | plain pieces ordinary starts ends =>
      rw [hspelling] at hscanned
      cases hscanned
    | quoted pieces inside =>
      rw [hspelling] at hscanned
      cases hscanned
    | hexForm digits hex =>
      obtain ⟨hnone, value, hvalue⟩ :=
        readValue_hexForm hex (stops_restText rest) ava.beforeValue ava.behindValue
      cases hCN : ava.isCN with
      | true =>
        rw [Spelling.text, hnone]
        cases cn <;> rfl
      | false =>
        rw [Spelling.text, hvalue]
        dsimp only
        rw [hnext]
        simp

theorem avaLoop_eq (ava : Ava) (rest : List (Separator × Ava)) {fuel : ℕ}
    (h : rest.length < fuel) (cn : Option JsString) : avaLoop fuel cn (ava.text ++ restText rest) = collect cn (ava :: rest.map Prod.snd) := by
  obtain ⟨fuel, rfl⟩ : ∃ n, fuel = n + 1 := ⟨fuel - 1, by omega⟩
  induction rest generalizing ava fuel cn with
  | nil =>
    rw [avaLoop_step, List.map_nil, collect_cons]
    rfl
  | cons e rest ih =>
    obtain ⟨fuel, rfl⟩ : ∃ n, fuel = n + 1 :=
      ⟨fuel - 1, by rw [List.length_cons] at h; omega⟩
    have hih := fun cn => ih e.2 cn fuel (by rw [List.length_cons] at h; omega)
    rw [avaLoop_step, collect_cons, List.map_cons]
    simp only [hih]

theorem collect_some (value : JsString) (avas : List Ava) :
    collect (some value) avas = if avas.filter Ava.isCN = [] then some value else none := by
  induction avas with
  | nil => rfl
  | cons ava avas ih =>
    rw [collect_cons, List.filter_cons]
    cases ava.isCN with
    | true => simp
    | false => simpa using ih

theorem collect_none (avas : List Ava) :
    collect none avas = match avas.filter Ava.isCN with
      | [ava] => ava.value.scanned
      | _ => none := by
  induction avas with
  | nil => rfl
  | cons ava avas ih =>
    rw [collect_cons, List.filter_cons]
    cases ava.isCN with
    | true =>
      simp only [if_true]
      cases hscanned : ava.value.scanned with
      | none =>
        cases avas.filter Ava.isCN with
        | nil => exact hscanned.symm
        | cons other others => rfl
      | some value =>
        dsimp only
        rw [collect_some]
        cases avas.filter Ava.isCN with
        | nil => exact hscanned.symm
        | cons other others => simp
    | false => simpa using ih

/-! ## The common name -/

theorem length_restText (rest : List (Separator × Ava)) : rest.length ≤ (restText rest).length := by
  induction rest with
  | nil => exact Nat.le_refl _
  | cons e rest ih =>
    have hcons : restText (e :: rest) = e.1.unit :: (e.2.text ++ restText rest) := rfl
    rw [hcons, List.length_cons, List.length_cons, List.length_append]
    omega

/-- **What the scan makes of a distinguished name**: the value of its one common name, as the
decoder leaves it. -/
theorem cnFromDN_text (dn : Dn) :
    cnFromDN (some dn.text) = match dn.avas.filter Ava.isCN with
      | [ava] => ava.value.scanned
      | _ => none := by
  rw [← collect_none]
  refine avaLoop_eq dn.first dn.rest ?_ none
  have hle := length_restText dn.rest
  rw [Dn.text, List.length_append]
  omega

/-- The common name, if there is one, is spelled without a byte order mark at the start of a run of
hex pairs. -/
def Dn.Unmarked (dn : Dn) : Prop := ∀ ava, dn.avas.filter Ava.isCN = [ava] → ava.value.Unmarked

/-- **The common name is the one of the certificate** exactly where no run of hex pairs in it starts
with a byte order mark. -/
theorem cnFromDN_exact (dn : Dn) : cnFromDN (some dn.text) = dn.commonName ↔ dn.Unmarked := by
  rw [cnFromDN_text, Dn.commonName, Dn.Unmarked]
  cases hfilter : dn.avas.filter Ava.isCN with
  | nil => simp
  | cons ava others =>
    cases others with
    | nil =>
      dsimp only
      rw [ava.value.scanned_iff]
      constructor
      · intro h other hother
        rwa [← (List.cons.inj hother).1]
      · exact fun h => h ava rfl
    | cons other others => simp

def rawPieces (m : List Char) : List Piece := m.map .raw

def markPiece : Piece :=
  .hex byteOrderMark [(0x45, 0x46), (0x42, 0x42), (0x42, 0x46)] (by decide)

/-- `CN=\EF\BB\BFadmin`, of a certificate whose common name is `admin` behind a byte order mark. -/
def markedDn : Dn where
  first := {
    type := ⟨js "CN", by decide, by decide⟩
    value := .plain (markPiece :: rawPieces "admin".toList)
      (by
        rw [List.forall_mem_cons]
        refine ⟨trivial, fun p hp => ?_⟩
        obtain ⟨c, hc, rfl⟩ := List.mem_map.mp hp
        have hlist : "admin".toList = ['a', 'd', 'm', 'i', 'n'] := by decide
        rw [hlist] at hc
        simp only [List.mem_cons, List.not_mem_nil, or_false] at hc
        rcases hc with rfl | rfl | rfl | rfl | rfl <;>
          exact fun h => by simp at h)
      (by
        rintro p hp
        obtain rfl : markPiece = p := Option.some.inj hp
        trivial)
      (by
        rintro p hp
        obtain rfl : Piece.raw 'n' = p := Option.some.inj hp
        show 'n' ≠ ' '
        decide) }

theorem mark_is_lost :
    markedDn.text = js "CN=\\EF\\BB\\BFadmin" ∧
      cnFromDN (some markedDn.text) = some (js "admin") ∧
      cnFromDN (some markedDn.text) ≠ markedDn.commonName ∧
      matchesAllowedCN (cnFromDN (some markedDn.text)) [js "admin"] = true := by
  have htext : markedDn.text = js "CN=\\EF\\BB\\BFadmin" := by decide
  have hscan : cnFromDN (some markedDn.text) = some (js "admin") := by
    rw [htext]
    decide +kernel
  refine ⟨htext, hscan, ?_, by rw [hscan]; decide⟩
  rw [hscan]
  decide +kernel

end Daloy.Mtls
