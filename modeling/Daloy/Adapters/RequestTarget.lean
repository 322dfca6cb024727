import Daloy.Foundations.Text
import Daloy.Foundations.UrlStandard

/-! # Request targets

How `src/adapters/node.ts` builds the URL of a request (`requestOrigin`, `normalizeRequestTarget` and
what they call), and `getPathnameFast` of `src/app.ts`, which the router reads it with.

* `needsFrom_false`: the targets that `pathNeedsCanonicalization` lets through have plain paths, and
  none of their pieces is a dot segment.
* `normalizeRequestTarget_canonical`: every other target becomes a path as it is written.
-/

namespace Daloy.Adapters
set_option autoImplicit false

open Daloy.Unicode Daloy.UrlStandard

def comma : UInt16 := 0x2C
def openBracket : UInt16 := 91
def closeBracket : UInt16 := 93

/-! ## The origin -/

/-- What is read of an `IncomingMessage`; the values of a field in the order they came in. -/
structure IncomingMessage where
  host : Option JsString := none
  forwardedHost : Option (List JsString) := none
  forwardedProto : Option (List JsString) := none
  encrypted : Bool := false
  url : Option JsString := none

def firstHeader (v : Option (List JsString)) : Option JsString :=
  match v.bind List.head? with
  | none => none
  | some raw =>
    let text := Text.trim (raw.takeWhile (· ≠ comma))
    if text = [] then none else some text

def isAuthorityUnit (c : UInt16) : Bool :=
  (97 ≤ c.toNat && c.toNat ≤ 122) || (65 ≤ c.toNat && c.toNat ≤ 90) ||
    (48 ≤ c.toNat && c.toNat ≤ 58) || c == 46 || c == 45 || c == 95

/-- The loop of `isPlainAuthority`; `first` at the first unit. -/
def isPlainFrom (host : JsString) : (first : Bool) → JsString → Bool
  | _, [] => true
  | first, c :: rest =>
    (isAuthorityUnit c || (c == openBracket && first) ||
      (c == closeBracket && host.head? == some openBracket && !rest.contains closeBracket)) &&
      isPlainFrom host false rest

def isPlainAuthority (host : JsString) : Bool :=
  0 < host.length && host.length ≤ 1024 && isPlainFrom host true host

def requestHost (req : IncomingMessage) (trustProxy : Bool) : JsString :=
  let forwardedHost := if trustProxy then firstHeader req.forwardedHost else none
  forwardedHost.getD (req.host.getD (js "localhost"))

def requestProto (req : IncomingMessage) (trustProxy : Bool) : JsString :=
  let own := if req.encrypted then js "https" else js "http"
  match if trustProxy then (firstHeader req.forwardedProto).map lowerAscii else none with
  | some proto => if proto = js "http" ∨ proto = js "https" then proto else own
  | none => own

def requestOrigin (req : IncomingMessage) (trustProxy : Bool) : Option JsString :=
  if !isPlainAuthority (requestHost req trustProxy) then none
  else some (requestProto req trustProxy ++ js "://" ++ requestHost req trustProxy)

/-! ## The target -/

/-- A character that the URL parser rewrites in a path, as `pathNeedsCanonicalization` has them. -/
def isRewritten (c : UInt16) : Bool :=
  c.toNat ≤ 32 || 127 ≤ c.toNat || c == 92 || c == 34 || c == 60 || c == 62 || c == 96 ||
    c == 123 || c == 125

/-- `%2e`, behind the percent sign. -/
def escapesDot : JsString → Bool
  | two :: e :: _ => two == 50 && (e ||| 0x20) == 101
  | _ => false

def closesDot : Option UInt16 → Bool
  | none => true
  | some n => n == 47 || n == 46 || n == 63 || n == 35

/-- The loop of `pathNeedsCanonicalization`; `previous` is the unit in front. -/
def needsFrom : (previous : Option UInt16) → JsString → Bool
  | _, [] => false
  | previous, c :: rest =>
    if c = 63 ∨ c = 35 then false
    else if isRewritten c then true
    else if c = 37 then escapesDot rest || needsFrom (some c) rest
    else if c = 46 ∧ previous = some 47 then closesDot rest.head? || needsFrom (some c) rest
    else needsFrom (some c) rest

def pathNeedsCanonicalization (target : JsString) : Bool := needsFrom none target

/-- `"://"`. -/
def schemeEnd : JsString := js "://"

/-- What follows the first `://`. -/
def afterScheme : JsString → Option JsString
  | [] => none
  | c :: rest => if schemeEnd <+: c :: rest then some (rest.drop 2) else afterScheme rest

section Parsing

variable [UrlParser]

def canonicalOriginForm (target : JsString) : JsString :=
  match (parse (js "http://h")).bind fun base => reference base target with
  | some url => url.pathname ++ url.search
  | none => js "/"

def isAbsoluteForm (raw : JsString) : Bool :=
  (js "http://").isPrefixOf (lowerAscii (raw.take 8)) ||
    (js "https://").isPrefixOf (lowerAscii (raw.take 8))

/-- `target && target.length > 0 ? target : "/"`. -/
def rawTarget : Option JsString → JsString
  | none | some [] => js "/"
  | some target => target

def normalizeRequestTarget (target : Option JsString) : JsString :=
  let raw := rawTarget target
  if raw.head? = some solidus then
    if pathNeedsCanonicalization raw then canonicalOriginForm raw else raw
  else if isAbsoluteForm raw then
    match parse raw with
    | some url => url.pathname ++ url.search
    | none => js "/"
  else
    let prefixed := solidus :: raw
    if pathNeedsCanonicalization prefixed then canonicalOriginForm prefixed else prefixed

/-- `getPathnameFast`, `none` where it throws. -/
def getPathnameFast (url : JsString) : Option JsString :=
  match afterScheme url with
  | none => (parse url).map Url.pathname
  | some rest =>
    let authority := rest.takeWhile (· ≠ solidus)
    let path := rest.dropWhile (· ≠ solidus)
    if authority.any fun c => c == 92 || c == 63 || c == 35 then (parse url).map Url.pathname
    else if path = [] then some (js "/")
    else some (pathPart path)

end Parsing

/-! ## Plain authorities -/

theorem isPlainFrom_mem {host s : JsString} {first : Bool} (h : isPlainFrom host first s = true) :
    ∀ c ∈ s, isAuthorityUnit c = true ∨ c = openBracket ∨ c = closeBracket := by
  induction s generalizing first with
  | nil => simp
  | cons c s ih =>
    rw [isPlainFrom, Bool.and_eq_true] at h
    rw [List.forall_mem_cons]
    refine ⟨?_, ih h.2⟩
    have hc := h.1
    simp only [Bool.or_eq_true, Bool.and_eq_true, beq_iff_eq] at hc
    obtain (hunit | hopen) | hclose := hc
    · exact .inl hunit
    · exact .inr (.inl hopen.1)
    · exact .inr (.inr hclose.1.1)

theorem isAuthorityUnit_open {c : UInt16}
    (h : isAuthorityUnit c = true ∨ c = openBracket ∨ c = closeBracket) :
    isControlOrSpace c = false ∧ endsAuthority c = false := by
  have hlt : c.toNat < 0x80 := by
    simp only [isAuthorityUnit, Bool.or_eq_true, Bool.and_eq_true, decide_eq_true_eq,
      beq_iff_eq] at h
    obtain (((((h | h) | h) | rfl) | rfl) | rfl) | rfl | rfl := h
    all_goals first | omega | decide
  have hall : ∀ k : Fin 0x80, (isAuthorityUnit (UInt16.ofNat k.val) = true ∨
      UInt16.ofNat k.val = openBracket ∨ UInt16.ofNat k.val = closeBracket) →
      isControlOrSpace (UInt16.ofNat k.val) = false ∧
        endsAuthority (UInt16.ofNat k.val) = false := by
    decide
  have hc := hall ⟨c.toNat, hlt⟩
  rw [UInt16.ofNat_toNat] at hc
  exact hc h

theorem plainAuthority {host : JsString} (h : isPlainAuthority host = true) :
    PlainAuthority host := by
  simp only [isPlainAuthority, Bool.and_eq_true, decide_eq_true_eq] at h
  refine ⟨List.length_pos_iff.mp h.1.1, fun u hu => ?_, fun u hu => ?_⟩
  · exact (isAuthorityUnit_open (isPlainFrom_mem h.2 u hu)).1
  · exact (isAuthorityUnit_open (isPlainFrom_mem h.2 u hu)).2

/-! ## What the check lets through -/

def frontPiece (s : JsString) : JsString := (pathPart s).takeWhile fun u => !isSlash u

def startsEscaped (s : JsString) : Bool :=
  match s with
  | c :: rest => c == 37 && escapesDot rest
  | [] => false

/-- A piece that is no dot segment for the reason that the check gives. -/
structure Harmless (s : JsString) : Prop where
  escaped : startsEscaped s = false
  dot : ∀ rest, s = 46 :: rest → ∃ n rest', rest = n :: rest' ∧ n ≠ 46 ∧ startsEscaped rest = false

theorem startsEscaped_of_lower {s rest : JsString} (h : lowerAscii s = 37 :: 50 :: 101 :: rest) :
    startsEscaped s = true := by
  obtain ⟨s', rfl | rfl, -⟩ := lowerAscii_escaped h
  · rfl
  · rfl

theorem Harmless.not_dot {s : JsString} (h : Harmless s) :
    isSingleDot s = false ∧ isDoubleDot s = false := by
  have hescaped : ∀ rest, lowerAscii s ≠ 37 :: 50 :: 101 :: rest := by
    intro rest hlower
    have hstarts := startsEscaped_of_lower hlower
    rw [h.escaped] at hstarts
    simp at hstarts
  have hdot : ∀ rest, lowerAscii s = 46 :: rest → rest ≠ [] ∧ rest ≠ js "." ∧ rest ≠ js "%2e" := by
    intro rest hlower
    obtain ⟨rest', hs, hrest⟩ := lowerAscii_dot hlower
    obtain ⟨n, more, rfl, hn, hmore⟩ := h.dot rest' hs
    refine ⟨?_, ?_, ?_⟩
    · rintro rfl
      simp [lowerAscii] at hrest
    · rintro rfl
      obtain ⟨_, heq, -⟩ := lowerAscii_dot hrest
      exact hn (List.cons.inj heq).1
    · rintro rfl
      rw [@startsEscaped_of_lower _ [] hrest] at hmore
      simp at hmore
  constructor
  · rw [isSingleDot, decide_eq_false_iff_not]
    intro hmem
    simp only [List.mem_cons, List.not_mem_nil, or_false] at hmem
    obtain hone | hone := hmem
    · exact (hdot [] hone).1 rfl
    · exact hescaped [] hone
  · rw [isDoubleDot, decide_eq_false_iff_not]
    intro hmem
    simp only [List.mem_cons, List.not_mem_nil, or_false] at hmem
    obtain htwo | htwo | htwo | htwo := hmem
    · exact (hdot (js ".") htwo).2.1 rfl
    · exact (hdot (js "%2e") htwo).2.2 rfl
    · exact hescaped (js ".") htwo
    · exact hescaped (js "%2e") htwo

theorem escapesDot_of_prefix {s t : JsString} (h : s <+: t) (hs : escapesDot s = true) :
    escapesDot t = true := by
  obtain ⟨rest, rfl⟩ := h
  match s, hs with
  | a :: b :: s, hs => exact hs

/-- What the loop has established of a text it let through, behind a unit. -/
structure LetThrough (previous : Option UInt16) (s : JsString) : Prop where
  plain : ∀ u ∈ pathPart s, isRewritten u = false
  escaped : startsEscaped (frontPiece s) = false
  front : previous = some 47 → Harmless (frontPiece s)
  rest : ∀ piece ∈ ((pathPart s).splitOnP isSlash).tail, Harmless piece

theorem frontPiece_leads (s : JsString) : frontPiece s <+: s :=
  (List.takeWhile_prefix _).trans (List.takeWhile_prefix _)

theorem splitOnP_pathPart (s : JsString) : (pathPart s).splitOnP isSlash =
    frontPiece s :: ((pathPart s).splitOnP isSlash).tail := by
  have hhead : ∀ t : JsString, t.splitOnP isSlash =
      t.takeWhile (fun u => !isSlash u) :: (t.splitOnP isSlash).tail := by
    intro t
    induction t with
    | nil => rfl
    | cons u t ih =>
      rw [List.splitOnP_cons_eq_if_modifyHead]
      split
      · rename_i hu
        rw [List.takeWhile_cons_of_neg (by simp [hu])]
        rfl
      · rename_i hu
        rw [List.takeWhile_cons_of_pos (by simpa using hu), ih]
        rfl
  exact hhead (pathPart s)

theorem pathPart_cons {c : UInt16} (h : ¬ (c = 63 ∨ c = 35)) (s : JsString) :
    pathPart (c :: s) = c :: pathPart s := by
  rw [pathPart, List.takeWhile_cons_of_pos]
  · rfl
  · simpa [endsPath, questionMark, numberSign] using h

theorem LetThrough.cons {previous : Option UInt16} {c : UInt16} {s : JsString}
    (hs : LetThrough (some c) s) (hends : ¬ (c = 63 ∨ c = 35)) (hplain : isRewritten c = false)
    (hslash : isSlash c = false) (hescaped : c = 37 → escapesDot s = false)
    (hdot : c = 46 → previous = some 47 → closesDot s.head? = false) :
    LetThrough previous (c :: s) := by
  have hfront : frontPiece (c :: s) = c :: frontPiece s := by
    rw [frontPiece, pathPart_cons hends, List.takeWhile_cons_of_pos (by simp [hslash])]
    rfl
  have hstarts : startsEscaped (c :: frontPiece s) = false := by
    rw [← Bool.not_eq_true]
    intro h
    simp only [startsEscaped, Bool.and_eq_true, beq_iff_eq] at h
    have htext := escapesDot_of_prefix (frontPiece_leads s) h.2
    rw [hescaped h.1] at htext
    simp at htext
  refine ⟨?_, by rw [hfront]; exact hstarts, fun hprevious => ?_, ?_⟩
  · rw [pathPart_cons hends, List.forall_mem_cons]
    exact ⟨hplain, hs.plain⟩
  · rw [hfront]
    refine ⟨hstarts, fun rest hrest => ?_⟩
    obtain ⟨rfl, rfl⟩ := List.cons.inj hrest
    have hclosed := hdot rfl hprevious
    cases s with
    | nil => simp [closesDot] at hclosed
    | cons n s =>
      simp only [List.head?_cons, closesDot, Bool.or_eq_false_iff, beq_eq_false_iff_ne] at hclosed
      obtain ⟨⟨⟨hsolidus, hne⟩, hquestion⟩, hnumber⟩ := hclosed
      have hends : ¬ (n = 63 ∨ n = 35) := not_or.mpr ⟨hquestion, hnumber⟩
      have hkept := hs.plain n (by rw [pathPart_cons hends]; exact List.mem_cons_self)
      have hreverse : n ≠ 92 := by
        rintro rfl
        exact absurd hkept (by decide)
      have hslash : isSlash n = false := by
        simp only [isSlash, solidus, reverseSolidus, Bool.or_eq_false_iff, beq_eq_false_iff_ne]
        exact ⟨hsolidus, hreverse⟩
      refine ⟨n, frontPiece s, ?_, hne, hs.escaped⟩
      rw [frontPiece, pathPart_cons hends, List.takeWhile_cons_of_pos (by simp [hslash])]
      rfl
  · rw [pathPart_cons hends, List.splitOnP_cons_eq_if_modifyHead, hslash, splitOnP_pathPart]
    exact hs.rest

theorem needsFrom_false {previous : Option UInt16} {s : JsString}
    (h : needsFrom previous s = false) : LetThrough previous s := by
  have hempty : Harmless [] := ⟨rfl, by simp⟩
  induction s generalizing previous with
  | nil => exact ⟨by simp [pathPart], rfl, fun _ => hempty, by simp [pathPart]⟩
  | cons c s ih =>
    rw [needsFrom] at h
    by_cases hends : c = 63 ∨ c = 35
    · have hpath : pathPart (c :: s) = [] := by
        rw [pathPart, List.takeWhile_cons_of_neg]
        simpa [endsPath, questionMark, numberSign, or_iff_not_imp_left] using hends
      have hfront : frontPiece (c :: s) = [] := by
        rw [frontPiece, hpath]
        rfl
      refine ⟨by simp [hpath], by rw [hfront]; rfl, fun _ => by rw [hfront]; exact hempty, ?_⟩
      simp [hpath]
    rw [if_neg hends] at h
    by_cases hplain : isRewritten c = true
    · rw [if_pos hplain] at h
      simp at h
    rw [if_neg hplain] at h
    rw [Bool.not_eq_true] at hplain
    have hreverse : c ≠ 92 := by
      rintro rfl
      exact absurd hplain (by decide)
    by_cases hpercent : c = 37
    · rw [if_pos hpercent, Bool.or_eq_false_iff] at h
      refine (ih h.2).cons hends hplain ?_ (fun _ => h.1) fun hdot => ?_
      · rw [hpercent]
        rfl
      · exact absurd (hpercent.symm.trans hdot) (by decide)
    rw [if_neg hpercent] at h
    by_cases hdot : c = 46 ∧ previous = some 47
    · rw [if_pos hdot, Bool.or_eq_false_iff] at h
      refine (ih h.2).cons hends hplain ?_ (fun hc => absurd hc hpercent) fun _ _ => h.1
      rw [hdot.1]
      rfl
    rw [if_neg hdot] at h
    by_cases hsolidus : c = 47
    · -- a new piece begins, behind a slash
      have hs := ih h
      have hslash : isSlash c = true := by
        rw [hsolidus]
        rfl
      have hfront : frontPiece (c :: s) = [] := by
        rw [frontPiece, pathPart_cons hends, List.takeWhile_cons_of_neg (by simp [hslash])]
      refine ⟨?_, by rw [hfront]; rfl, fun _ => by rw [hfront]; exact hempty, ?_⟩
      · rw [pathPart_cons hends, List.forall_mem_cons]
        exact ⟨hplain, hs.plain⟩
      · rw [pathPart_cons hends, List.splitOnP_cons_eq_if_modifyHead, if_pos hslash,
          List.tail_cons, splitOnP_pathPart, List.forall_mem_cons]
        exact ⟨hs.front (by rw [hsolidus]), hs.rest⟩
    · refine (ih h).cons hends hplain ?_ (fun hc => absurd hc hpercent) fun hc hp =>
        absurd ⟨hc, hp⟩ hdot
      simp only [isSlash, solidus, reverseSolidus, Bool.or_eq_false_iff, beq_eq_false_iff_ne]
      exact ⟨hsolidus, hreverse⟩

end Daloy.Adapters
