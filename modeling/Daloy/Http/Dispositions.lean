import Daloy.Foundations.UriEncoding
import Daloy.Http.Headers

/-! # The file name of a disposition

What a client makes of the value of a `Content-Disposition` field: a type, and parameters whose
values are tokens or quoted strings. Nothing here mentions a program.

* `readExtended`: a value with a charset, percent-encoded.
* `fileName`: that of `filename*` if it is there, that of `filename` otherwise.
* `fileName_quoted`, `fileName_extended`: on fields of the two common forms.
-/

namespace Daloy.Http.Dispositions
set_option autoImplicit false

open Daloy.Text Daloy.Unicode Daloy.UrlStandard

def quotationMark : UInt16 := 0x22
def backslash : UInt16 := 0x5C
def semicolon : UInt16 := 0x3B
def apostrophe : UInt16 := 0x27

def isBlank (u : UInt16) : Bool := u = 0x20 ∨ u = 0x09

/-- The content of a quoted string behind its first mark, and what stands behind the second one. -/
def readQuoted : JsString → Option (JsString × JsString)
  | [] => none
  | u :: rest =>
    if u = quotationMark then some ([], rest)
    else if u = backslash then
      match rest with
      | [] => none
      | v :: rest => (readQuoted rest).map fun r => (v :: r.1, r.2)
    else (readQuoted rest).map fun r => (u :: r.1, r.2)

def readValue (s : JsString) : Option (JsString × JsString) :=
  if s.head? = some quotationMark then readQuoted (s.drop 1)
  else if s.takeWhile isTokenUnit = [] then none
  else some (s.takeWhile isTokenUnit, s.dropWhile isTokenUnit)

def readParameter (s : JsString) : Option ((JsString × JsString) × JsString) :=
  if s.takeWhile isTokenUnit = [] ∨ (s.dropWhile isTokenUnit).head? ≠ some equalsSign then none
  else (readValue ((s.dropWhile isTokenUnit).drop 1)).map fun r =>
    ((lowerAscii (s.takeWhile isTokenUnit), r.1), r.2)

def readParameters : ℕ → JsString → Option (List (JsString × JsString))
  | 0, _ => none
  | fuel + 1, s =>
    if s.dropWhile isBlank = [] then some []
    else if (s.dropWhile isBlank).head? ≠ some semicolon then none
    else (readParameter (((s.dropWhile isBlank).drop 1).dropWhile isBlank)).bind fun r =>
      (readParameters fuel r.2).map (r.1 :: ·)

def parameters (field : JsString) : Option (List (JsString × JsString)) :=
  if field.takeWhile isTokenUnit = [] then none
  else readParameters (field.length + 1) (field.dropWhile isTokenUnit)

def isAttrUnit (u : UInt16) : Bool := isTokenUnit u && u ∉ js "*'%"

def readExtended (s : JsString) : Option JsString :=
  let rest := s.dropWhile (· ≠ apostrophe)
  let value := (rest.drop 1).dropWhile (· ≠ apostrophe)
  if lowerAscii (s.takeWhile (· ≠ apostrophe)) = js "utf-8" ∧ value ≠ [] ∧
      (value.drop 1).all (fun u => isAttrUnit u || u = percentSign) then
    decodeURIComponent (value.drop 1)
  else none

def fileName (field : JsString) : Option JsString :=
  (parameters field).bind fun params =>
    match params.lookup (js "filename*") with
    | some value => readExtended value
    | none => params.lookup (js "filename")

/-! ## Reading what was written -/

theorem readQuoted_plain {s : JsString} (h : ∀ u ∈ s, u ≠ quotationMark ∧ u ≠ backslash)
    (rest : JsString) : readQuoted (s ++ quotationMark :: rest) = some (s, rest) := by
  induction s with
  | nil => rw [List.nil_append, readQuoted.eq_def]; rfl
  | cons u s ih =>
    obtain ⟨hquote, hslash⟩ := h u List.mem_cons_self
    rw [List.cons_append, readQuoted.eq_def]
    dsimp only
    rw [if_neg hquote, if_neg hslash, ih fun v hv => h v (List.mem_cons_of_mem _ hv)]
    rfl

theorem readParameter_quoted {name value : JsString} (hname : IsToken name)
    (hvalue : ∀ u ∈ value, u ≠ quotationMark ∧ u ≠ backslash) (rest : JsString) :
    readParameter (name ++ equalsSign :: quotationMark :: (value ++ quotationMark :: rest)) =
      some ((lowerAscii name, value), rest) := by
  obtain ⟨htake, hdrop⟩ := @span_append _ isTokenUnit name hname.2
    (equalsSign :: quotationMark :: (value ++ quotationMark :: rest)) (by
      rintro u ⟨⟩
      decide)
  rw [readParameter, htake, hdrop, if_neg (by simp [hname.1]), List.drop_one, List.tail_cons,
    readValue, List.head?_cons, if_pos rfl, List.drop_one, List.tail_cons, readQuoted_plain hvalue]
  rfl

theorem readParameter_token {name value : JsString} (hname : IsToken name) (hvalue : IsToken value)
    {rest : JsString} (hrest : ∀ u, rest.head? = some u → isTokenUnit u = false) :
    readParameter (name ++ equalsSign :: (value ++ rest)) =
      some ((lowerAscii name, value), rest) := by
  obtain ⟨htake, hdrop⟩ := @span_append _ isTokenUnit name hname.2 (equalsSign :: (value ++ rest)) (by
      rintro u ⟨⟩
      decide)
  obtain ⟨htake', hdrop'⟩ := span_append hvalue.2 hrest
  have hhead : (value ++ rest).head? ≠ some quotationMark := by
    cases value with
    | nil => exact absurd rfl hvalue.1
    | cons u value =>
      intro heq
      have hunit := hvalue.2 u List.mem_cons_self
      rw [Option.some.inj heq] at hunit
      exact absurd hunit (by decide)
  rw [readParameter, htake, hdrop, if_neg (by simp [hname.1]), List.drop_one, List.tail_cons,
    readValue, if_neg hhead, htake', if_neg hvalue.1, hdrop']
  rfl

theorem readParameters_cons {s rest : JsString} {param : JsString × JsString} (fuel : ℕ)
    (hs : ∀ u, s.head? = some u → isBlank u = false)
    (h : readParameter s = some (param, rest)) :
    readParameters (fuel + 1) (semicolon :: 0x20 :: s) =
      (readParameters fuel rest).map (param :: ·) := by
  have hdrop : (semicolon :: 0x20 :: s).dropWhile isBlank = semicolon :: 0x20 :: s :=
    List.dropWhile_cons_of_neg (by decide)
  have hspace : ((0x20 : UInt16) :: s).dropWhile isBlank = s := by
    have hempty := (@span_append _ isBlank [0x20] (by decide) s hs).2
    exact hempty
  rw [readParameters, hdrop, if_neg (by simp), List.head?_cons, if_neg (by simp), List.drop_one,
    List.tail_cons, hspace, h]
  rfl

theorem head_token {name : JsString} (hname : IsToken name) (rest : JsString) :
    ∀ u, (name ++ rest).head? = some u → isBlank u = false := by
  intro u hu
  cases name with
  | nil => exact absurd rfl hname.1
  | cons v name =>
    obtain rfl := Option.some.inj hu
    have hunit := hname.2 v List.mem_cons_self
    by_contra hblank
    simp only [isBlank, Bool.not_eq_false, Bool.decide_or, Bool.or_eq_true, decide_eq_true_eq]
      at hblank
    obtain rfl | rfl := hblank
    · exact absurd hunit (by decide)
    · exact absurd hunit (by decide)

theorem parameters_append {type : JsString} (htype : IsToken type) (rest : JsString) :
    parameters (type ++ semicolon :: rest) =
      readParameters ((type ++ semicolon :: rest).length + 1) (semicolon :: rest) := by
  obtain ⟨htake, hdrop⟩ := @span_append _ isTokenUnit type htype.2 (semicolon :: rest) (by
      rintro u ⟨⟩
      decide)
  rw [parameters, htake, if_neg htype.1, hdrop]

theorem fileName_quoted {type value : JsString} (htype : IsToken type)
    (hvalue : ∀ u ∈ value, u ≠ quotationMark ∧ u ≠ backslash) :
    fileName (type ++ semicolon :: 0x20 :: (js "filename" ++ equalsSign :: quotationMark ::
      (value ++ [quotationMark]))) = some value := by
  have hname : IsToken (js "filename") := by decide
  have hfuel (n : ℕ) : readParameters (n + 2) (semicolon :: 0x20 :: (js "filename" ++ equalsSign ::
      quotationMark :: (value ++ [quotationMark]))) = some [(js "filename", value)] := by
    rw [readParameters_cons _ (head_token hname _) (readParameter_quoted hname hvalue []),
      show lowerAscii (js "filename") = js "filename" by decide]
    rfl
  rw [fileName, parameters_append htype, List.length_append, List.length_cons, ← Nat.add_assoc,
    hfuel]
  rfl

theorem fileName_extended {type value encoded : JsString} (htype : IsToken type)
    (hvalue : ∀ u ∈ value, u ≠ quotationMark ∧ u ≠ backslash)
    (hencoded : ∀ u ∈ encoded, isAttrUnit u = true ∨ u = percentSign) :
    fileName (type ++ semicolon :: 0x20 :: (js "filename" ++ equalsSign :: quotationMark ::
      (value ++ quotationMark :: semicolon :: 0x20 :: (js "filename*" ++ equalsSign ::
        (js "UTF-8''" ++ encoded))))) = decodeURIComponent encoded := by
  have hname : IsToken (js "filename") := by decide
  have hstar : IsToken (js "filename*") := by decide
  have hextended : IsToken (js "UTF-8''" ++ encoded) := by
    refine ⟨List.append_ne_nil_of_left_ne_nil (by decide) _, fun u hu => ?_⟩
    obtain hu | hu := List.mem_append.mp hu
    · have hcharset : ∀ v ∈ js "UTF-8''", isTokenUnit v = true := by decide
      exact hcharset u hu
    · obtain hattr | rfl := hencoded u hu
      · exact (Bool.and_eq_true _ _ ▸ hattr).1
      · decide
  have hnone : ∀ u, ([] : JsString).head? = some u → isTokenUnit u = false := by
    intro u hu
    cases hu
  have hlast := readParameter_token hstar hextended hnone
  rw [List.append_nil] at hlast
  have hfuel (n : ℕ) : readParameters (n + 3) (semicolon :: 0x20 :: (js "filename" ++ equalsSign ::
      quotationMark :: (value ++ quotationMark :: semicolon :: 0x20 :: (js "filename*" ++
        equalsSign :: (js "UTF-8''" ++ encoded))))) =
      some [(js "filename", value), (js "filename*", js "UTF-8''" ++ encoded)] := by
    rw [readParameters_cons _ (head_token hname _) (readParameter_quoted hname hvalue _),
      readParameters_cons _ (head_token hstar _) hlast,
      show lowerAscii (js "filename") = js "filename" by decide,
      show lowerAscii (js "filename*") = js "filename*" by decide]
    rfl
  have hread : readExtended (js "UTF-8''" ++ encoded) = decodeURIComponent encoded := by
    have hall : encoded.all (fun u => isAttrUnit u || u = percentSign) = true := by
      rw [List.all_eq_true]
      intro u hu
      simpa using hencoded u hu
    have hcharset : (js "UTF-8''" ++ encoded).takeWhile (· ≠ apostrophe) = js "UTF-8" ∧
        (js "UTF-8''" ++ encoded).dropWhile (· ≠ apostrophe) =
          apostrophe :: apostrophe :: encoded := ⟨rfl, rfl⟩
    rw [readExtended, hcharset.1, hcharset.2, List.drop_one, List.tail_cons,
      List.dropWhile_cons_of_neg (by simp), List.drop_one, List.tail_cons, if_pos ⟨by decide, by simp, hall⟩]
  rw [fileName, parameters_append htype, List.length_append, List.length_cons, List.length_cons,
    show ∀ n m : ℕ, n + (m + 1 + 1) + 1 = (n + m) + 3 by omega, hfuel]
  exact hread

end Daloy.Http.Dispositions
