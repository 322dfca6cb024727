import Daloy.Foundations.UriComponent
import Mathlib.Data.List.DropRight
import Mathlib.Data.List.SplitOn

/-! # URLs of the schemes `http` and `https`

Nothing here mentions a program. What the URL standard does to the text of such a URL, apart from its
authority, whose parser is any function; so are the URLs of other schemes.

* `encodeWith`: percent-encoding of what a set does not keep.
* `resolve`: the path state, over the pieces between slashes. `pathname` writes the segments.
* `parse`, `reference`: a text on its own, and a text that starts with a slash against a base.
* `segmentsOf_pathname`: a path that was written is read back as it is.
* `parse_origin`: a text that starts with a slash, behind an origin.
-/

namespace Daloy.UrlStandard
set_option autoImplicit false

open Daloy.Unicode

def solidus : UInt16 := 0x2F
def reverseSolidus : UInt16 := 0x5C
def questionMark : UInt16 := 0x3F
def numberSign : UInt16 := 0x23
def fullStop : UInt16 := 0x2E
def circumflex : UInt16 := 0x5E

/-! ## Percent-encoding -/

def hexUnit (n : ℕ) : UInt16 := UInt16.ofNat (if n < 10 then 0x30 + n else 0x41 + (n - 10))

def escape (b : UInt8) : JsString := [percentSign, hexUnit (b.toNat / 16), hexUnit (b.toNat % 16)]

/-- A scalar value, escaped unless it is one of the ASCII units that are kept. -/
def encodeChar (keep : UInt16 → Bool) (c : Char) : JsString :=
  if c.toNat < 0x80 ∧ keep (UInt16.ofNat c.toNat) = true then [UInt16.ofNat c.toNat]
  else (String.utf8EncodeChar c).flatMap escape

def encodeWith (keep : UInt16 → Bool) (s : JsString) : JsString :=
  (scalars s).flatMap (encodeChar keep)

def keptInQuery (u : UInt16) : Bool :=
  0x20 < u.toNat && u.toNat < 0x7F && u ∉ js "\"#<>'"

def keptInPath (u : UInt16) : Bool :=
  0x20 < u.toNat && u.toNat < 0x7F && u ∉ js "\"#<>?^\x60\x7b\x7d"

/-! ## Paths -/

def isSlash (u : UInt16) : Bool := u == solidus || u == reverseSolidus

def endsPath (u : UInt16) : Bool := u == questionMark || u == numberSign

def lowerAscii (s : JsString) : JsString :=
  s.map fun u => if 0x41 ≤ u.toNat ∧ u.toNat ≤ 0x5A then u + 0x20 else u

def isSingleDot (s : JsString) : Bool := lowerAscii s ∈ [js ".", js "%2e"]

def isDoubleDot (s : JsString) : Bool :=
  lowerAscii s ∈ [js "..", js ".%2e", js "%2e.", js "%2e%2e"]

theorem unit_of_lower {u v : UInt16}
    (h : (if 0x41 ≤ u.toNat ∧ u.toNat ≤ 0x5A then u + 0x20 else u) = v) :
    u = v ∨ (u = v - 0x20 ∧ 0x61 ≤ v.toNat) := by
  split at h
  · rename_i hupper
    right
    have hvalue : v.toNat = u.toNat + 0x20 := by
      have htwo : (0x20 : UInt16).toNat = 0x20 := rfl
      rw [← h, UInt16.toNat_add, htwo]
      exact Nat.mod_eq_of_lt (by omega)
    exact ⟨by rw [← h, UInt16.add_sub_cancel], by omega⟩
  · exact .inl h

theorem lowerAscii_cons {s rest : JsString} {v : UInt16} (h : lowerAscii s = v :: rest) :
    ∃ u s', s = u :: s' ∧ (u = v ∨ (u = v - 0x20 ∧ 0x61 ≤ v.toNat)) ∧ lowerAscii s' = rest := by
  cases s with
  | nil => simp [lowerAscii] at h
  | cons u s =>
    rw [lowerAscii, List.map_cons] at h
    obtain ⟨hu, hrest⟩ := List.cons.inj h
    exact ⟨u, s, rfl, unit_of_lower hu, hrest⟩

theorem lowerAscii_nil {s : JsString} (h : lowerAscii s = []) : s = [] := by
  simpa [lowerAscii] using h

theorem lowerAscii_dot {s rest : JsString} (h : lowerAscii s = 0x2E :: rest) :
    ∃ s', s = 0x2E :: s' ∧ lowerAscii s' = rest := by
  obtain ⟨u, s', rfl, rfl | ⟨-, hletter⟩, hrest⟩ := lowerAscii_cons h
  · exact ⟨s', rfl, hrest⟩
  · exact absurd hletter (by decide)

theorem lowerAscii_escaped {s rest : JsString} (h : lowerAscii s = 0x25 :: 0x32 :: 0x65 :: rest) :
    ∃ s', (s = 0x25 :: 0x32 :: 0x65 :: s' ∨ s = 0x25 :: 0x32 :: 0x45 :: s') ∧
      lowerAscii s' = rest := by
  obtain ⟨u, s₁, rfl, rfl | ⟨-, hletter⟩, h₁⟩ := lowerAscii_cons h
  · obtain ⟨v, s₂, rfl, rfl | ⟨-, hletter⟩, h₂⟩ := lowerAscii_cons h₁
    · obtain ⟨w, s₃, rfl, rfl | ⟨rfl, -⟩, hrest⟩ := lowerAscii_cons h₂
      · exact ⟨s₃, .inl rfl, hrest⟩
      · exact ⟨s₃, .inr rfl, hrest⟩
    · exact absurd hletter (by decide)
  · exact absurd hletter (by decide)

/-- The segments, from those in front of a piece and the pieces that are left. -/
def resolve : List JsString → List JsString → List JsString
  | path, [] => path
  | path, [last] =>
    if isDoubleDot (encodeWith keptInPath last) then path.dropLast ++ [[]]
    else if isSingleDot (encodeWith keptInPath last) then path ++ [[]]
    else path ++ [encodeWith keptInPath last]
  | path, piece :: next :: pieces =>
    resolve
      (if isDoubleDot (encodeWith keptInPath piece) then path.dropLast
        else if isSingleDot (encodeWith keptInPath piece) then path
        else path ++ [encodeWith keptInPath piece])
      (next :: pieces)

def pathPart (s : JsString) : JsString := s.takeWhile fun u => !endsPath u

def pieces (s : JsString) : List JsString :=
  List.splitOnP isSlash (if (s.head?.any isSlash) = true then s.tail else s)

def segmentsOf (s : JsString) : List JsString := resolve [] (pieces (pathPart s))

/-- `url.pathname`, of the segments. -/
def pathname (segments : List JsString) : JsString := segments.flatMap fun s => solidus :: s

def pathOf (s : JsString) : JsString := pathname (segmentsOf s)

def queryOf (s : JsString) : Option JsString :=
  match (s.takeWhile (· ≠ numberSign)).dropWhile (· ≠ questionMark) with
  | [] => none
  | _ :: query => some (encodeWith keptInQuery query)

/-! ## URLs -/

structure Authority where
  username : JsString := []
  password : JsString := []
  hostname : JsString
  port : JsString := []
  deriving DecidableEq

structure Url where
  protocol : JsString
  authority : Authority
  segments : List JsString
  query : Option JsString
  deriving DecidableEq

/-- What is not spelled out here: the authority of a URL, given its scheme (the authority state, the
host parser and the port state), and the URLs of other schemes. -/
class UrlParser where
  parseAuthority : JsString → JsString → Option Authority
  parseOther : JsString → Option Url

def Url.pathname (url : Url) : JsString := UrlStandard.pathname url.segments

def Url.search (url : Url) : JsString :=
  match url.query with
  | none | some [] => []
  | some query => questionMark :: query

def isControlOrSpace (u : UInt16) : Bool := u.toNat ≤ 0x20
def isTabOrNewline (u : UInt16) : Bool := u == 0x09 || u == 0x0A || u == 0x0D

/-- A text without the controls and spaces around it, and without tabs and newlines. -/
def clean (s : JsString) : JsString :=
  ((s.dropWhile isControlOrSpace).rdropWhile isControlOrSpace).filter fun u => !isTabOrNewline u

/-- The scheme of a text, if it is one of the two, and what follows the colon. -/
def splitScheme (s : JsString) : Option (JsString × JsString) :=
  if lowerAscii (s.take 5) = js "http:" then some (js "http:", s.drop 5)
  else if lowerAscii (s.take 6) = js "https:" then some (js "https:", s.drop 6)
  else none

def endsAuthority (u : UInt16) : Bool := isSlash u || endsPath u

section Parsing

variable [UrlParser]

open UrlParser

def parseBehind (protocol s : JsString) : Option Url :=
  let s := s.dropWhile isSlash
  (parseAuthority protocol (s.takeWhile fun u => !endsAuthority u)).map
    fun authority =>
      let rest := s.dropWhile fun u => !endsAuthority u
      { protocol, authority, segments := segmentsOf rest, query := queryOf rest }

/-- `new URL(s)`, `none` where it throws. -/
def parse (s : JsString) : Option Url :=
  match splitScheme (clean s) with
  | some (protocol, rest) => parseBehind protocol rest
  | none => parseOther s

/-- `new URL(s, base)`, for a text that starts with a slash; with two, it names an authority. -/
def reference (base : Url) (s : JsString) : Option Url :=
  match clean s with
  | u :: v :: rest =>
    if isSlash v then parseBehind base.protocol rest
    else some { base with segments := segmentsOf (u :: v :: rest), query := queryOf (u :: v :: rest) }
  | s => some { base with segments := segmentsOf s, query := queryOf s }

end Parsing

/-! ## What encoding leaves -/

theorem combine_toNat_ge (u v : UInt16) (hu : isHighSurrogate u = true)
    (hv : isLowSurrogate v = true) : 0x80 ≤ (combine u v).toNat := by
  simp only [isHighSurrogate, isLowSurrogate, Bool.and_eq_true, decide_eq_true_eq] at hu hv
  have hvalid : (0x10000 + (u.toNat - 0xD800) * 0x400 + (v.toNat - 0xDC00)).isValidChar := by
    unfold Nat.isValidChar
    omega
  have hvalue : (combine u v).toNat =
      0x10000 + (u.toNat - 0xD800) * 0x400 + (v.toNat - 0xDC00) := by
    rw [combine, Char.ofNat, dif_pos hvalid]
    rfl
  omega

theorem unit_of_scalar {u : UInt16} (hu : IsPlain u) :
    UInt16.ofNat (Char.ofNat u.toNat).toNat = u := by
  rw [char_toNat hu, UInt16.ofNat_toNat]

theorem mem_of_mem_scalars {s : JsString} {c : Char} (hc : c ∈ scalars s) (h : c.toNat < 0x80) :
    UInt16.ofNat c.toNat ∈ s := by
  have hreplacement : ¬ replacement.toNat < 0x80 := by decide
  fun_induction scalars s with
  | case1 => simp at hc
  | case2 u =>
    obtain rfl := List.mem_singleton.mp hc
    split at h
    · exact absurd h hreplacement
    · rename_i hplain
      rw [if_neg hplain]
      simp only [Bool.or_eq_true, not_or, Bool.not_eq_true] at hplain
      rw [unit_of_scalar hplain]
      exact List.mem_singleton.mpr rfl
  | case3 u v rest hu hv ih =>
    have hpair := combine_toNat_ge u v hu hv
    obtain hc | hc := List.mem_cons.mp hc
    · rw [← hc] at hpair
      omega
    · exact List.mem_cons_of_mem _ (List.mem_cons_of_mem _ (ih hc))
  | case4 u v rest hu hv ih =>
    obtain rfl | hc := List.mem_cons.mp hc
    · exact absurd h hreplacement
    · exact List.mem_cons_of_mem _ (ih hc)
  | case5 u v rest hu ih =>
    obtain rfl | hc := List.mem_cons.mp hc
    · split at h
      · exact absurd h hreplacement
      · rename_i hl
        rw [if_neg hl, unit_of_scalar ⟨by simpa using hu, by simpa using hl⟩]
        exact List.mem_cons_self
    · exact List.mem_cons_of_mem _ (ih hc)

def isEscapeUnit (u : UInt16) : Bool :=
  u == percentSign || (0x30 ≤ u.toNat && u.toNat ≤ 0x39) || (0x41 ≤ u.toNat && u.toNat ≤ 0x46)

theorem isEscapeUnit_hexUnit {n : ℕ} (h : n < 16) : isEscapeUnit (hexUnit n) = true := by
  have hall : ∀ k : Fin 16, isEscapeUnit (hexUnit k.val) = true := by decide
  exact hall ⟨n, h⟩

theorem isEscapeUnit_escape (b : UInt8) : ∀ u ∈ escape b, isEscapeUnit u = true := by
  have hlt := b.toNat_lt
  intro u hu
  rw [escape] at hu
  simp only [List.mem_cons, List.not_mem_nil, or_false] at hu
  obtain rfl | rfl | rfl := hu
  · rfl
  · exact isEscapeUnit_hexUnit (by omega)
  · exact isEscapeUnit_hexUnit (by omega)

theorem mem_encodeWith {keep : UInt16 → Bool} {s : JsString} {u : UInt16}
    (h : u ∈ encodeWith keep s) : (u ∈ s ∧ keep u = true) ∨ isEscapeUnit u = true := by
  rw [encodeWith, List.mem_flatMap] at h
  obtain ⟨c, hc, hu⟩ := h
  rw [encodeChar] at hu
  split at hu
  · rename_i hkeep
    obtain rfl := List.mem_singleton.mp hu
    exact .inl ⟨mem_of_mem_scalars hc hkeep.1, hkeep.2⟩
  · obtain ⟨b, -, hb⟩ := List.mem_flatMap.mp hu
    exact .inr (isEscapeUnit_escape b u hb)

theorem encodeWith_eq_self {keep : UInt16 → Bool} {s : JsString}
    (h : ∀ u ∈ s, u.toNat < 0x80 ∧ keep u = true) : encodeWith keep s = s := by
  induction s with
  | nil => rfl
  | cons u s ih =>
    obtain ⟨hlt, hkeep⟩ := h u List.mem_cons_self
    have hplain : IsPlain u := by
      constructor
      · simp only [isHighSurrogate, Bool.and_eq_false_iff, decide_eq_false_iff_not]
        omega
      · simp only [isLowSurrogate, Bool.and_eq_false_iff, decide_eq_false_iff_not]
        omega
    have hvalid : u.toNat.isValidChar := by
      unfold Nat.isValidChar
      omega
    have hvalue : (Char.ofNat u.toNat).toNat = u.toNat := by
      rw [Char.ofNat, dif_pos hvalid]
      rfl
    have hchar : encodeChar keep (Char.ofNat u.toNat) = [u] := by
      rw [encodeChar, hvalue, UInt16.ofNat_toNat, if_pos ⟨hlt, hkeep⟩]
    rw [encodeWith, scalars_unit u s hplain.1 hplain.2, List.flatMap_cons, hchar]
    exact congrArg (u :: ·) (ih fun v hv => h v (List.mem_cons_of_mem _ hv))

theorem keptInPath_lt {u : UInt16} (h : keptInPath u = true) : u.toNat < 0x80 := by
  simp only [keptInPath, Bool.and_eq_true, decide_eq_true_eq] at h
  omega

/-! ## Segments that a path keeps -/

/-- A segment of a parsed path. -/
structure Settled (s : JsString) : Prop where
  kept : ∀ u ∈ s, keptInPath u = true ∧ isSlash u = false
  single : isSingleDot s = false
  double : isDoubleDot s = false

theorem settled_nil : Settled [] := ⟨by simp, by decide, by decide⟩

theorem Settled.encode {s : JsString} (h : Settled s) : encodeWith keptInPath s = s :=
  encodeWith_eq_self fun u hu => ⟨keptInPath_lt (h.kept u hu).1, (h.kept u hu).1⟩

theorem escapeUnit_kept {u : UInt16} (h : isEscapeUnit u = true) :
    keptInPath u = true ∧ isSlash u = false := by
  have hlt : u.toNat < 0x80 := by
    simp only [isEscapeUnit, Bool.or_eq_true, Bool.and_eq_true, decide_eq_true_eq, beq_iff_eq] at h
    obtain (rfl | h) | h := h
    · decide
    · omega
    · omega
  have hall : ∀ k : Fin 0x80, isEscapeUnit (UInt16.ofNat k.val) = true →
      keptInPath (UInt16.ofNat k.val) = true ∧ isSlash (UInt16.ofNat k.val) = false := by
    decide
  have hu := hall ⟨u.toNat, hlt⟩
  rw [UInt16.ofNat_toNat] at hu
  exact hu h

theorem encode_kept {s : JsString} (h : ∀ u ∈ s, isSlash u = false) :
    ∀ u ∈ encodeWith keptInPath s, keptInPath u = true ∧ isSlash u = false := by
  intro u hu
  obtain ⟨hmem, hkept⟩ | hescape := mem_encodeWith hu
  · exact ⟨hkept, h u hmem⟩
  · exact escapeUnit_kept hescape

theorem resolve_settled {path pieces : List JsString} (hpath : ∀ s ∈ path, Settled s)
    (hpieces : ∀ s ∈ pieces, ∀ u ∈ s, isSlash u = false) :
    (∀ s ∈ resolve path pieces, Settled s) ∧ (pieces ≠ [] → resolve path pieces ≠ []) := by
  fun_induction resolve path pieces with
  | case1 path => exact ⟨hpath, by simp⟩
  | case2 path last hdouble =>
    refine ⟨fun s hs => ?_, by simp⟩
    obtain hs | hs := List.mem_append.mp hs
    · exact hpath s (List.dropLast_subset _ hs)
    · rw [List.mem_singleton.mp hs]
      exact settled_nil
  | case3 path last hdouble hsingle =>
    refine ⟨fun s hs => ?_, by simp⟩
    obtain hs | hs := List.mem_append.mp hs
    · exact hpath s hs
    · rw [List.mem_singleton.mp hs]
      exact settled_nil
  | case4 path last hdouble hsingle =>
    refine ⟨fun s hs => ?_, by simp⟩
    obtain hs | hs := List.mem_append.mp hs
    · exact hpath s hs
    · rw [List.mem_singleton.mp hs]
      exact ⟨encode_kept (hpieces last List.mem_cons_self), by simpa using hsingle,
        by simpa using hdouble⟩
  | case5 path piece next pieces ih =>
    have hfirst := ih ?_ fun s hs => hpieces s (List.mem_cons_of_mem _ hs)
    · exact ⟨hfirst.1, fun _ => hfirst.2 (by simp)⟩
    · intro s hs
      split at hs
      · exact hpath s (List.dropLast_subset _ hs)
      · split at hs
        · exact hpath s hs
        · rename_i hdouble hsingle
          obtain hs | hs := List.mem_append.mp hs
          · exact hpath s hs
          · rw [List.mem_singleton.mp hs]
            exact ⟨encode_kept (hpieces piece List.mem_cons_self), by simpa using hsingle,
              by simpa using hdouble⟩

theorem resolve_of_settled {path pieces : List JsString} (h : ∀ s ∈ pieces, Settled s) :
    resolve path pieces = path ++ pieces := by
  induction pieces generalizing path with
  | nil => rw [resolve, List.append_nil]
  | cons piece pieces ih =>
    have hpiece := h piece List.mem_cons_self
    cases pieces with
    | nil => simp [resolve, hpiece.encode, hpiece.single, hpiece.double]
    | cons next pieces =>
      rw [resolve, hpiece.encode, hpiece.double, hpiece.single,
        ih fun s hs => h s (List.mem_cons_of_mem _ hs)]
      simp

/-! ## Paths that are written and read back -/

theorem splitOnP_not {α : Type} {p : α → Bool} (s : List α) :
    ∀ piece ∈ s.splitOnP p, ∀ a ∈ piece, p a = false := by
  induction s with
  | nil => simp
  | cons a s ih =>
    rw [List.splitOnP_cons_eq_if_modifyHead]
    split
    · rw [List.forall_mem_cons]
      exact ⟨by simp, ih⟩
    · rename_i ha
      obtain ⟨first, rest, hsplit⟩ := List.exists_cons_of_ne_nil (List.splitOnP_ne_nil p s)
      rw [hsplit] at ih ⊢
      rw [List.forall_mem_cons] at ih
      rw [List.modifyHead_cons, List.forall_mem_cons]
      refine ⟨fun b hb => ?_, ih.2⟩
      obtain rfl | hb := List.mem_cons.mp hb
      · simpa using ha
      · exact ih.1 b hb

theorem mem_of_mem_splitOnP {α : Type} {p : α → Bool} {s : List α} {a : α} :
    ∀ piece ∈ s.splitOnP p, a ∈ piece → a ∈ s := by
  induction s with
  | nil => simp
  | cons b s ih =>
    rw [List.splitOnP_cons_eq_if_modifyHead]
    split
    · intro piece hpiece ha
      obtain rfl | hpiece := List.mem_cons.mp hpiece
      · simp at ha
      · exact List.mem_cons_of_mem _ (ih piece hpiece ha)
    · obtain ⟨first, rest, hsplit⟩ := List.exists_cons_of_ne_nil (List.splitOnP_ne_nil p s)
      rw [hsplit] at ih ⊢
      intro piece hpiece ha
      obtain rfl | hpiece := List.mem_cons.mp hpiece
      · obtain rfl | ha := List.mem_cons.mp ha
        · exact List.mem_cons_self
        · exact List.mem_cons_of_mem _ (ih first List.mem_cons_self ha)
      · exact List.mem_cons_of_mem _ (ih piece (List.mem_cons_of_mem _ hpiece) ha)

theorem segmentsOf_settled (s : JsString) : ∀ segment ∈ segmentsOf s, Settled segment :=
  (resolve_settled (by simp) (splitOnP_not _)).1

theorem segmentsOf_ne_nil (s : JsString) : segmentsOf s ≠ [] :=
  (resolve_settled (by simp) (splitOnP_not _)).2 (List.splitOnP_ne_nil _ _)

theorem isSlash_solidus : isSlash solidus = true := rfl

theorem pieces_pathname {segments : List JsString} (hne : segments ≠ [])
    (h : ∀ s ∈ segments, ∀ u ∈ s, isSlash u = false) : pieces (pathname segments) = segments := by
  have hsplit : ∀ (s : JsString) (rest : List JsString), (∀ t ∈ s :: rest, ∀ u ∈ t, isSlash u = false) →
      List.splitOnP isSlash (s ++ pathname rest) = s :: rest := by
    intro s rest
    induction rest generalizing s with
    | nil =>
      intro hall
      rw [pathname, List.flatMap_nil, List.append_nil]
      exact List.splitOnP_eq_singleton (hall s List.mem_cons_self)
    | cons next rest ih =>
      intro hall
      rw [pathname, List.flatMap_cons, List.cons_append,
        List.splitOnP_append_cons_of_forall_mem (hall s List.mem_cons_self) _ isSlash_solidus,
        ← pathname, ih next fun t ht => hall t (List.mem_cons_of_mem _ ht)]
  cases segments with
  | nil => exact absurd rfl hne
  | cons s rest =>
    rw [pieces, pathname, List.flatMap_cons, List.cons_append, List.head?_cons, List.tail_cons,
      if_pos (by simp [isSlash_solidus])]
    exact hsplit s rest h

def Ended (q : JsString) : Prop := ∀ u, q.head? = some u → endsPath u = true

theorem pathPart_append {p q : JsString} (hp : ∀ u ∈ p, endsPath u = false) (hq : Ended q) :
    pathPart (p ++ q) = p := by
  rw [pathPart, List.takeWhile_append_of_pos fun u hu => by simp [hp u hu]]
  cases q with
  | nil => simp
  | cons u q => rw [List.takeWhile_cons_of_neg (by simp [hq u rfl]), List.append_nil]

theorem keptInPath_not_endsPath {u : UInt16} (h : keptInPath u = true) : endsPath u = false := by
  rw [← Bool.not_eq_true]
  intro hends
  simp only [endsPath, Bool.or_eq_true, beq_iff_eq] at hends
  obtain rfl | rfl := hends
  · exact absurd h (by decide)
  · exact absurd h (by decide)

theorem mem_pathname {segments : List JsString} {u : UInt16} (h : u ∈ pathname segments) :
    u = solidus ∨ ∃ s ∈ segments, u ∈ s := by
  obtain ⟨s, hs, hu⟩ := List.mem_flatMap.mp h
  obtain rfl | hu := List.mem_cons.mp hu
  · exact .inl rfl
  · exact .inr ⟨s, hs, hu⟩

theorem pathname_not_endsPath {segments : List JsString} (h : ∀ s ∈ segments, Settled s) :
    ∀ u ∈ pathname segments, endsPath u = false := by
  intro u hu
  obtain rfl | ⟨s, hs, hmem⟩ := mem_pathname hu
  · rfl
  · exact keptInPath_not_endsPath ((h s hs).kept u hmem).1

theorem segmentsOf_pathname {segments : List JsString} (hne : segments ≠ [])
    (h : ∀ s ∈ segments, Settled s) {q : JsString} (hq : Ended q) :
    segmentsOf (pathname segments ++ q) = segments := by
  rw [segmentsOf, pathPart_append (pathname_not_endsPath h) hq,
    pieces_pathname hne fun s hs u hu => ((h s hs).kept u hu).2, resolve_of_settled h,
    List.nil_append]

theorem pathOf_eq_pathPart {s : JsString} (hslash : s.head? = some solidus)
    (hpart : reverseSolidus ∉ pathPart s) (h : ∀ piece ∈ pieces (pathPart s), Settled piece) :
    pathOf s = pathPart s := by
  have hjoin : ∀ t : JsString, reverseSolidus ∉ t →
      pathname (t.splitOnP isSlash) = solidus :: t := by
    intro t
    induction t with
    | nil => intro _; rfl
    | cons u t ih =>
      intro hu
      have ht := ih fun h => hu (List.mem_cons_of_mem _ h)
      obtain ⟨first, rest, hsplit⟩ := List.exists_cons_of_ne_nil (List.splitOnP_ne_nil isSlash t)
      rw [List.splitOnP_cons_eq_if_modifyHead]
      split
      · rename_i hslash
        have hsolidus : u = solidus := by
          simp only [isSlash, Bool.or_eq_true, beq_iff_eq] at hslash
          exact hslash.resolve_right fun h => hu (by rw [h]; exact List.mem_cons_self)
        rw [pathname, List.flatMap_cons, ← pathname, ht, hsolidus]
        rfl
      · rw [hsplit, pathname, List.flatMap_cons] at ht
        rw [hsplit, List.modifyHead_cons, pathname, List.flatMap_cons]
        rw [List.cons_append] at ht ⊢
        exact congrArg (solidus :: u :: ·) (List.cons.inj ht).2
  cases s with
  | nil => simp at hslash
  | cons u s =>
    obtain rfl : u = solidus := by simpa using hslash
    have hpath : pathPart (solidus :: s) = solidus :: pathPart s := by
      rw [pathPart, List.takeWhile_cons_of_pos (by decide)]
      rfl
    have hpieces : pieces (solidus :: pathPart s) = (pathPart s).splitOnP isSlash := by
      rw [pieces, List.head?_cons, List.tail_cons, if_pos (by simp [isSlash_solidus])]
    rw [hpath, hpieces] at h
    rw [hpath] at hpart
    rw [pathOf, segmentsOf, hpath, hpieces, resolve_of_settled h, List.nil_append,
      hjoin _ fun hmem => hpart (List.mem_cons_of_mem _ hmem)]

theorem pathOf_kept (s : JsString) : ∀ u ∈ pathOf s, keptInPath u = true := by
  intro u hu
  obtain rfl | ⟨segment, hsegment, hmem⟩ := mem_pathname hu
  · decide
  · exact ((segmentsOf_settled s segment hsegment).kept u hmem).1

/-! ## Cleaning -/

def cleanEnd (s : JsString) : JsString :=
  (s.rdropWhile isControlOrSpace).filter fun u => !isTabOrNewline u

def Visible (s : JsString) : Prop := ∀ u ∈ s, isControlOrSpace u = false

theorem not_isTabOrNewline {u : UInt16} (h : isControlOrSpace u = false) :
    isTabOrNewline u = false := by
  rw [← Bool.not_eq_true]
  intro htab
  simp only [isTabOrNewline, Bool.or_eq_true, beq_iff_eq] at htab
  obtain (rfl | rfl) | rfl := htab
  · exact absurd h (by decide)
  · exact absurd h (by decide)
  · exact absurd h (by decide)

theorem clean_append {a : JsString} (ha : Visible a) (hne : a ≠ []) (s : JsString) :
    clean (a ++ s) = a ++ cleanEnd s := by
  obtain ⟨front, v, hlast⟩ := (List.eq_nil_or_concat' a).resolve_left hne
  obtain ⟨u, a', rfl⟩ := List.exists_cons_of_ne_nil hne
  have hv : isControlOrSpace v = false := ha v (by rw [hlast]; simp)
  have hfilter : (u :: a').filter (fun u => !isTabOrNewline u) = u :: a' := by
    rw [List.filter_eq_self]
    intro w hw
    simp [not_isTabOrNewline (ha w hw)]
  rw [clean, List.cons_append, List.dropWhile_cons_of_neg (by simp [ha u List.mem_cons_self]),
    ← List.cons_append, cleanEnd]
  have hdrop : ((u :: a') ++ s).rdropWhile isControlOrSpace =
      (u :: a') ++ s.rdropWhile isControlOrSpace := by
    rw [List.rdropWhile, List.rdropWhile, List.reverse_append, List.dropWhile_append]
    split
    · rename_i hempty
      have hnil : s.reverse.dropWhile isControlOrSpace = [] := by simpa using hempty
      rw [hnil, hlast, List.reverse_append, List.reverse_singleton, List.singleton_append,
        List.dropWhile_cons_of_neg (by simp [hv])]
      simp
    · rw [List.reverse_append, List.reverse_reverse]
  rw [hdrop, List.filter_append, hfilter]

theorem clean_eq_cleanEnd {u : UInt16} (h : isControlOrSpace u = false) (s : JsString) :
    clean (u :: s) = u :: cleanEnd s :=
  clean_append (a := [u]) (by simpa [Visible] using h) (by simp) s

theorem cleanEnd_cons {u : UInt16} (h : isControlOrSpace u = false) (s : JsString) :
    cleanEnd (u :: s) = u :: cleanEnd s := by
  rw [← clean_eq_cleanEnd h, clean, List.dropWhile_cons_of_neg (by simp [h])]
  rfl

theorem cleanEnd_visible {s : JsString} (h : Visible s) : cleanEnd s = s := by
  induction s with
  | nil => rfl
  | cons u s ih =>
    rw [cleanEnd_cons (h u List.mem_cons_self), ih fun v hv => h v (List.mem_cons_of_mem _ hv)]

theorem endsPath_visible {u : UInt16} (h : endsPath u = true) : isControlOrSpace u = false := by
  simp only [endsPath, Bool.or_eq_true, beq_iff_eq] at h
  obtain rfl | rfl := h
  · rfl
  · rfl

theorem pathPart_cleanEnd {s : JsString} (h : Visible (pathPart s)) :
    pathPart (cleanEnd s) = pathPart s := by
  induction s with
  | nil => rfl
  | cons u s ih =>
    by_cases hu : endsPath u = true
    · rw [cleanEnd_cons (endsPath_visible hu), pathPart, pathPart,
        List.takeWhile_cons_of_neg (by simp [hu]), List.takeWhile_cons_of_neg (by simp [hu])]
    · have hpath : pathPart (u :: s) = u :: pathPart s := by
        rw [pathPart, List.takeWhile_cons_of_pos (by simp [hu])]
        rfl
      rw [hpath] at h ⊢
      rw [cleanEnd_cons (h u List.mem_cons_self), pathPart,
        List.takeWhile_cons_of_pos (by simp [hu]), ← pathPart,
        ih fun v hv => h v (List.mem_cons_of_mem _ hv)]

/-! ## Behind an origin -/

section Origins

variable [UrlParser]

open UrlParser

def IsHttp (proto : JsString) : Prop := proto = js "http" ∨ proto = js "https"

/-- An authority without what would end it. -/
structure PlainAuthority (host : JsString) : Prop where
  ne_nil : host ≠ []
  visible : Visible host
  open_end : ∀ u ∈ host, endsAuthority u = false

omit [UrlParser] in
theorem splitScheme_origin {proto : JsString} (h : IsHttp proto) (s : JsString) :
    splitScheme (proto ++ js "://" ++ s) = some (proto ++ js ":", js "//" ++ s) := by
  obtain rfl | rfl := h
  · have htake : (js "http" ++ js "://" ++ s).take 5 = js "http:" := rfl
    rw [splitScheme, htake, if_pos (by decide)]
    rfl
  · have htake : (js "https" ++ js "://" ++ s).take 5 = js "https" := rfl
    have htake' : (js "https" ++ js "://" ++ s).take 6 = js "https:" := rfl
    rw [splitScheme, htake, if_neg (by decide), htake', if_pos (by decide)]
    rfl

theorem parse_origin {proto host : JsString} (hproto : IsHttp proto) (hhost : PlainAuthority host)
    {s : JsString} (hs : s.head? = some solidus) :
    parse (proto ++ js "://" ++ host ++ s) =
      (parseAuthority (proto ++ js ":") host).map fun authority =>
        { protocol := proto ++ js ":", authority
          segments := segmentsOf (clean s), query := queryOf (clean s) } := by
  obtain ⟨rest, rfl⟩ : ∃ rest, s = solidus :: rest := by
    cases s with
    | nil => simp at hs
    | cons u s => exact ⟨s, by simpa using hs⟩
  have hvisible : Visible (proto ++ js "://" ++ host) := by
    intro u hu
    obtain hu | hu := List.mem_append.mp hu
    · have hall : ∀ proto, IsHttp proto → ∀ u ∈ proto ++ js "://", isControlOrSpace u = false := by
        rintro proto (rfl | rfl)
        · decide
        · decide
      exact hall proto hproto u hu
    · exact hhost.visible u hu
  have hclean : clean (proto ++ js "://" ++ host ++ solidus :: rest) =
      proto ++ js "://" ++ (host ++ solidus :: cleanEnd rest) := by
    rw [clean_append hvisible (by simp [hhost.ne_nil]), cleanEnd_cons (by decide),
      List.append_assoc]
  have htake : (host ++ solidus :: cleanEnd rest).takeWhile (fun u => !endsAuthority u) = host := by
    rw [List.takeWhile_append_of_pos fun u hu => by simp [hhost.open_end u hu],
      List.takeWhile_cons_of_neg (by decide), List.append_nil]
  have hdrop : (host ++ solidus :: cleanEnd rest).dropWhile (fun u => !endsAuthority u) =
      solidus :: cleanEnd rest := by
    rw [List.dropWhile_append_of_pos fun u hu => by simp [hhost.open_end u hu],
      List.dropWhile_cons_of_neg (by decide)]
  have hslashes : (js "//" ++ (host ++ solidus :: cleanEnd rest)).dropWhile isSlash =
      host ++ solidus :: cleanEnd rest := by
    rw [List.dropWhile_append_of_pos (by decide)]
    obtain ⟨u, host', rfl⟩ := List.exists_cons_of_ne_nil hhost.ne_nil
    have hu := hhost.open_end u List.mem_cons_self
    rw [endsAuthority, Bool.or_eq_false_iff] at hu
    rw [List.cons_append, List.dropWhile_cons_of_neg (by simp [hu.1])]
  rw [parse, hclean, splitScheme_origin hproto]
  dsimp only
  rw [parseBehind, hslashes, htake, hdrop, clean_eq_cleanEnd (by decide)]

end Origins

end Daloy.UrlStandard
