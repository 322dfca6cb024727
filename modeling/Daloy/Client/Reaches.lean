import Daloy.Client.PathTemplate
import Daloy.Routing.Isolated

/-! # The typed client reaches its own route

The path of a route, filled with encoded values and parsed as a URL, against the trie that matches
and decodes it.

* `Addressable`: no literal segment `.` or `..`, and no two slashes in a row.
* `template_segments`, `bindings_filled`: what is filled in is matched and bound.
-/

namespace Daloy.Client
set_option autoImplicit false

open Daloy.Unicode Daloy.UrlStandard Daloy.Routing

variable {T : Type}

def Addressable (path : JsString) : Prop :=
  (∀ segment ∈ path.splitOn slash, segment ≠ js "." ∧ segment ≠ js "..") ∧ ¬ js "//" <:+: path

instance (path : JsString) : Decidable (Addressable path) := inferInstanceAs (Decidable (_ ∧ _))

def isUnreserved (u : UInt16) : Bool :=
  isLetter u || (0x30 ≤ u.toNat && u.toNat ≤ 0x39) || u ∈ js "-._~"

def PlainLiterals (pattern : List Segment) : Prop :=
  ∀ text, .literal text ∈ pattern → ∀ u ∈ text, isUnreserved u = true

/-- No value has a control character or a backslash, and only those of wildcards have slashes. -/
def Clear (pattern : List Segment) (params : Params) : Prop :=
  ∀ s ∈ pattern, ∀ name, s.captureName = some name → ∀ value, params.get? name = some value →
    (∀ u ∈ value, isControl u = false ∧ u ≠ backslash) ∧ (s.isWildcard = false → slash ∉ value)

/-- A value, or a piece of a wildcard's value, that is empty or a dot segment. -/
def HasEmptyOrDots (pattern : List Segment) (params : Params) : Prop :=
  ∃ s ∈ pattern, ∃ name, s.captureName = some name ∧ ∃ value, params.get? name = some value ∧
    ∃ text ∈ texts s.isWildcard value, text = [] ∨ text = js "." ∨ text = js ".."

/-- The lookup for the route's method returns the route, with the values that were given. -/
def Returns (calls : List (Call T)) (route : Route T) (params : Params) (path : JsString) : Prop :=
  ∃ result, (Router.after calls).find route.method path = some result ∧
    result.handler = route.handler ∧
    result.params.entries =
      (captureNames route.pattern).map fun name => (name, (params.get? name).getD [])

/-! ## The template and the pattern -/

def part : Segment → Part
  | .literal text => .text text
  | .param name => .capture name false
  | .wildcard name => .capture name true

theorem ofSegment_eq (segment : JsString) : Part.ofSegment segment = part (Segment.ofText segment) := by
  cases segment with
  | nil => rfl
  | cons u rest =>
    rw [Part.ofSegment, Segment.ofText]
    simp only [List.head?_cons, Option.some.injEq, List.length_cons]
    by_cases hcolon : u = colon
    · have hstar : u ≠ star := by
        rw [hcolon]
        decide
      rw [if_pos hcolon, if_neg hstar, if_pos hcolon]
      rfl
    · by_cases hstar : u = star
      · rw [if_neg hcolon, if_pos hstar, if_pos hstar, part]
        cases rest with
        | nil => rfl
        | cons v rest => rw [if_pos (by simp), if_neg (by simp)]
      · rw [if_neg hcolon, if_neg hstar, if_neg hstar, if_neg hcolon]
        rfl

def filled (params : Params) (pattern : List Segment) : List JsString :=
  pattern.flatMap fun s => (part s).segments params

def Fits (params : Params) (pattern : List Segment) : Prop := ∀ s ∈ pattern, (part s).Fits params

theorem template_segments (route : Route T) :
    ∃ k, (∀ params, (compilePathTemplate route.path).flatMap (Part.segments params) =
        lead route.path ++ filled params route.pattern ++ List.replicate k []) ∧
      (∀ params, (∀ p ∈ compilePathTemplate route.path, p.Fits params) ↔
        Fits params route.pattern) ∧
      route.path.splitOn slash = lead route.path ++ splitPath route.path ++ List.replicate k [] := by
  obtain ⟨k, hk⟩ := splitOn_path route.path
  have hempty : Part.ofSegment [] = .text [] := rfl
  have hnil : ∀ (params : Params) (segments : List JsString), (∀ s ∈ segments, s = []) →
      (segments.map Part.ofSegment).flatMap (Part.segments params) = segments := by
    intro params segments
    induction segments with
    | nil => intro _; rfl
    | cons s rest ih =>
      intro h
      rw [List.map_cons, List.flatMap_cons, ih fun t ht => h t (List.mem_cons_of_mem _ ht),
        h s List.mem_cons_self, hempty]
      rfl
  have hlead : ∀ s ∈ lead route.path, s = [] := by
    intro s hs
    rw [lead] at hs
    split at hs
    · exact List.mem_singleton.mp hs
    · simp at hs
  have htail : ∀ s ∈ List.replicate k ([] : JsString), s = [] :=
    fun s hs => (List.mem_replicate.mp hs).2
  have hpattern : (splitPath route.path).map Part.ofSegment = route.pattern.map part := by
    rw [Route.pattern, List.map_map]
    exact List.map_congr_left fun segment _ => ofSegment_eq segment
  refine ⟨k, fun params => ?_, fun params => ?_, hk⟩
  · rw [compilePathTemplate, hk, List.map_append, List.map_append, List.flatMap_append,
      List.flatMap_append, hnil params _ hlead, hnil params _ htail, hpattern, List.flatMap_map]
    rfl
  · rw [compilePathTemplate, hk]
    constructor
    · intro h s hs
      refine h _ (List.mem_map.mpr ?_)
      rw [Route.pattern] at hs
      obtain ⟨segment, hsegment, rfl⟩ := List.mem_map.mp hs
      exact ⟨segment, by simp [hsegment], ofSegment_eq segment⟩
    · intro h p hp
      obtain ⟨segment, hsegment, rfl⟩ := List.mem_map.mp hp
      obtain hsegment | hsegment := List.mem_append.mp hsegment
      · obtain hsegment | hsegment := List.mem_append.mp hsegment
        · rw [hlead segment hsegment]
          trivial
        · rw [ofSegment_eq]
          exact h _ (List.mem_map.mpr ⟨segment, hsegment, rfl⟩)
      · rw [htail segment hsegment]
        trivial

/-! ## What is filled in is matched -/

theorem Fits.tail {params : Params} {s : Segment} {pattern : List Segment}
    (h : Fits params (s :: pattern)) : Fits params pattern :=
  fun t ht => h t (List.mem_cons_of_mem _ ht)

theorem filled_cons (params : Params) (s : Segment) (pattern : List Segment) :
    filled params (s :: pattern) = (part s).segments params ++ filled params pattern := rfl

theorem shapeMatches_filled {params : Params} {pattern : List Segment} (hlast : WildcardLast pattern) :
    shapeMatches pattern (filled params pattern) = true := by
  induction pattern with
  | nil => rfl
  | cons s pattern ih =>
    rw [filled_cons]
    have hrest := ih hlast.2
    cases s with
    | literal text => simpa [part, Part.segments, shapeMatches] using hrest
    | param name => simpa [part, Part.segments, texts, shapeMatches] using hrest
    | wildcard name =>
      obtain rfl := hlast.1 rfl
      obtain ⟨first, rest, hsegments⟩ := List.exists_cons_of_ne_nil
        (Part.segments_ne_nil params (part (.wildcard name)))
      rw [hsegments]
      rfl

theorem boundValue_encode {text : JsString} (h : Encodable text) :
    boundValue (encodeWith keptInComponent text) = text := by
  rw [boundValue, decode_encode h.wellFormed, Option.getD_some]

theorem binds_encode {text : JsString} (h : Encodable text)
    (hclear : ∀ u ∈ text, isControl u = false ∧ u ≠ backslash) (hslash : slash ∉ text) :
    binds (encodeWith keptInComponent text) = true := by
  have hdots : isDotSegment text = false := by
    simp only [isDotSegment, Bool.or_eq_false_iff, decide_eq_false_iff_not]
    exact ⟨h.single, h.double⟩
  rw [binds, safeDecodeURIComponent]
  split
  · rename_i hplain
    have hself := decodeURIComponent_of_not_mem (s := encodeWith keptInComponent text)
      (by simpa using hplain)
    rw [decode_encode h.wellFormed] at hself
    rw [← Option.some.inj hself, hdots]
    rfl
  · rw [decode_encode h.wellFormed]
    dsimp only
    rw [hdots, if_neg Bool.false_ne_true]
    have hcomponents : components text = [text] := by
      refine List.splitOnP_eq_singleton fun u hu => ?_
      simp only [isSeparator, Bool.or_eq_false_iff, decide_eq_false_iff_not]
      exact ⟨fun heq => hslash (heq ▸ hu), (hclear u hu).2⟩
    have hcontrol : text.any isControl = false := by
      rw [List.any_eq_false]
      intro u hu
      simp [(hclear u hu).1]
    have hcontent : (hasUnsafeDecodedContent text false).1 = false := by
      rw [hasUnsafeDecodedContent, (hasUnsafeDecodedContentFrom_spec [] text false).1, hcomponents,
        hcontrol]
      simpa using hdots
    obtain ⟨verdict, flag, hverdict⟩ : ∃ verdict flag,
        hasUnsafeDecodedContent text false = (verdict, flag) := ⟨_, _, rfl⟩
    rw [hverdict] at hcontent ⊢
    obtain rfl : verdict = false := hcontent
    rfl

theorem Clear.tail {params : Params} {s : Segment} {pattern : List Segment}
    (h : Clear (s :: pattern) params) : Clear pattern params :=
  fun t ht => h t (List.mem_cons_of_mem _ ht)

theorem captured_filled {params : Params} {pattern : List Segment} (hlast : WildcardLast pattern)
    (hfits : Fits params pattern) (hclear : Clear pattern params) :
    ∀ segment ∈ captured pattern (filled params pattern), binds segment = true := by
  induction pattern with
  | nil => simp [filled, captured]
  | cons s pattern ih =>
    have hrest := ih hlast.2 hfits.tail hclear.tail
    have hfit := hfits s List.mem_cons_self
    rw [filled_cons]
    cases s with
    | literal text => simpa [part, Part.segments, captured] using hrest
    | param name =>
      obtain ⟨value, hvalue, hencodable⟩ := hfit
      obtain ⟨hunits, hslash⟩ := hclear _ List.mem_cons_self name rfl value hvalue
      simp only [part, Part.segments, hvalue, Option.getD_some, texts, Bool.false_eq_true, if_false,
        List.map_cons, List.map_nil, List.singleton_append, captured, List.forall_mem_cons]
      exact ⟨binds_encode (hencodable value (by simp [texts])) hunits (hslash rfl), hrest⟩
    | wildcard name =>
      obtain rfl := hlast.1 rfl
      obtain ⟨value, hvalue, hencodable⟩ := hfit
      obtain ⟨hunits, -⟩ := hclear _ List.mem_cons_self name rfl value hvalue
      intro segment hsegment
      simp only [part, Part.segments, hvalue, Option.getD_some, filled, List.flatMap_nil,
        List.append_nil, captured] at hsegment
      obtain ⟨text, htext, rfl⟩ := List.mem_map.mp hsegment
      have hpiece : text ∈ value.splitOnP (· == slash) := htext
      refine binds_encode (hencodable text htext)
        (fun u hu => hunits u (mem_of_mem_splitOnP text hpiece hu)) ?_
      intro hslash
      simpa using splitOnP_not value text hpiece slash hslash

theorem bindings_filled {params : Params} {pattern : List Segment} (hlast : WildcardLast pattern)
    (hfits : Fits params pattern) :
    bindings pattern (filled params pattern) =
      (captureNames pattern).map fun name => (name, (params.get? name).getD []) := by
  induction pattern with
  | nil => rfl
  | cons s pattern ih =>
    have hrest := ih hlast.2 hfits.tail
    have hfit := hfits s List.mem_cons_self
    rw [filled_cons]
    cases s with
    | literal text =>
      have hnames : captureNames (.literal text :: pattern) = captureNames pattern := rfl
      rw [hnames, ← hrest]
      rfl
    | param name =>
      obtain ⟨value, hvalue, hencodable⟩ := hfit
      have hbound := boundValue_encode (hencodable value (by simp [texts]))
      have hnames : captureNames (.param name :: pattern) = name :: captureNames pattern := rfl
      rw [hnames, List.map_cons, ← hrest]
      simp only [part, Part.segments, hvalue, Option.getD_some, texts, Bool.false_eq_true, if_false,
        List.map_cons, List.map_nil, List.singleton_append, bindings, hbound]
    | wildcard name =>
      obtain rfl := hlast.1 rfl
      obtain ⟨value, hvalue, hencodable⟩ := hfit
      have hnames : captureNames [.wildcard name] = [name] := rfl
      have hbound : ((texts true value).map (encodeWith keptInComponent)).map boundValue =
          texts true value := by
        rw [List.map_map]
        exact (List.map_congr_left fun text htext => boundValue_encode (hencodable text htext)).trans
          (List.map_id _)
      have hvalues : [slash].intercalate (texts true value) = value := List.intercalate_splitOn slash
      simp only [hnames, part, Part.segments, hvalue, Option.getD_some, filled, List.flatMap_nil,
        List.append_nil, bindings, hbound, hvalues, List.map_cons, List.map_nil]

/-! ## What is filled in is kept -/

theorem mem_filled {params : Params} {pattern : List Segment} (hfits : Fits params pattern)
    {s : JsString} (h : s ∈ filled params pattern) :
    .literal s ∈ pattern ∨ ∃ text, Encodable text ∧ s = encodeWith keptInComponent text := by
  obtain ⟨segment, hsegment, hs⟩ := List.mem_flatMap.mp h
  have hfit := hfits segment hsegment
  have hcapture : ∀ name wildcard, (Part.capture name wildcard).Fits params →
      s ∈ (Part.capture name wildcard).segments params →
        ∃ text, Encodable text ∧ s = encodeWith keptInComponent text := by
    rintro name wildcard ⟨value, hvalue, hencodable⟩ hs
    rw [Part.segments, hvalue, Option.getD_some] at hs
    obtain ⟨text, htext, rfl⟩ := List.mem_map.mp hs
    exact ⟨text, hencodable text htext, rfl⟩
  cases segment with
  | literal text =>
    rw [List.mem_singleton.mp hs]
    exact .inl hsegment
  | param name => exact .inr (hcapture name false hfit hs)
  | wildcard name => exact .inr (hcapture name true hfit hs)

def IsPathUnit (u : UInt16) : Prop :=
  keptInPath u = true ∧ isSlash u = false ∧ u ≠ colonSign ∧ u.toNat < 0x80

theorem isPathUnit_unreserved {u : UInt16} (h : isUnreserved u = true) :
    IsPathUnit u ∧ u ≠ percentSign := by
  have hlt : u.toNat < 0x80 := by
    simp only [isUnreserved, isLetter, Bool.or_eq_true, Bool.and_eq_true, decide_eq_true_eq] at h
    obtain ((h | h) | h) | h := h
    · omega
    · omega
    · omega
    · have hmarks : ∀ v ∈ js "-._~", v.toNat < 0x80 := by decide
      exact hmarks u h
  have hall : ∀ k : Fin 0x80, isUnreserved (UInt16.ofNat k.val) = true →
      keptInPath (UInt16.ofNat k.val) = true ∧ isSlash (UInt16.ofNat k.val) = false ∧
        UInt16.ofNat k.val ≠ colonSign ∧ UInt16.ofNat k.val ≠ percentSign := by
    decide
  have hu := hall ⟨u.toNat, hlt⟩
  rw [UInt16.ofNat_toNat] at hu
  obtain ⟨hkept, hslash, hcolon, hpercent⟩ := hu h
  exact ⟨⟨hkept, hslash, hcolon, hlt⟩, hpercent⟩

theorem isPathUnit_encode {text : JsString} {u : UInt16}
    (h : u ∈ encodeWith keptInComponent text) : IsPathUnit u := by
  have hunit : keptInComponent u = true ∨ isEscapeUnit u = true :=
    (mem_encodeWith h).imp And.right id
  have hkept : keptInPath u = true ∧ isSlash u = false := by
    obtain hkept | hescape := hunit
    · exact keptInComponent_kept hkept
    · exact escapeUnit_kept hescape
  refine ⟨hkept.1, hkept.2, ?_, keptInPath_lt hkept.1⟩
  rintro rfl
  obtain hcolon | hcolon := hunit
  · exact absurd hcolon (by decide)
  · exact absurd hcolon (by decide)

theorem isPathUnit_filled {params : Params} {pattern : List Segment}
    (hliterals : PlainLiterals pattern) (hfits : Fits params pattern) :
    ∀ s ∈ filled params pattern, ∀ u ∈ s, IsPathUnit u := by
  intro s hs u hu
  obtain hliteral | ⟨text, -, rfl⟩ := mem_filled hfits hs
  · exact (isPathUnit_unreserved (hliterals s hliteral u hu)).1
  · exact isPathUnit_encode hu

theorem plainPath_join {segments : List JsString} (h : ∀ s ∈ segments, ∀ u ∈ s, IsPathUnit u) :
    PlainPath (join segments) := by
  have hunit : ∀ u, IsPathUnit u → keptInPath u = true ∧ u ≠ reverseSolidus ∧ u ≠ colonSign := by
    intro u hu
    refine ⟨hu.1, ?_, hu.2.2.1⟩
    rintro rfl
    exact absurd hu.2.1 (by decide)
  have hpathname : ∀ rest : List JsString, (∀ s ∈ rest, ∀ u ∈ s, IsPathUnit u) →
      PlainPath (pathname rest) := by
    intro rest hrest u hu
    obtain rfl | ⟨s, hs, hmem⟩ := mem_pathname hu
    · exact ⟨by decide, by decide, by decide⟩
    · exact hunit u (hrest s hs u hmem)
  cases segments with
  | nil =>
    intro u hu
    simp [join] at hu
  | cons s rest =>
    intro u hu
    rw [join] at hu
    obtain hu | hu := List.mem_append.mp hu
    · exact hunit u (h s List.mem_cons_self u hu)
    · exact hpathname rest (fun t ht => h t (List.mem_cons_of_mem _ ht)) u hu

def NoDots (pattern : List Segment) : Prop :=
  ∀ text, .literal text ∈ pattern → text ≠ js "." ∧ text ≠ js ".."

theorem settled_filled {params : Params} {pattern : List Segment}
    (hliterals : PlainLiterals pattern) (hfits : Fits params pattern) (hdots : NoDots pattern) :
    ∀ s ∈ filled params pattern, Settled s := by
  intro s hs
  have hunits := isPathUnit_filled hliterals hfits s hs
  obtain hliteral | ⟨text, hencodable, rfl⟩ := mem_filled hfits hs
  · have hspelling : s ∉ dotSpellings := by
      intro hmem
      have hall : ∀ t ∈ dotSpellings, percentSign ∈ t ∨ t = js "." ∨ t = js ".." := by
        decide
      obtain hpercent | hdot := hall s hmem
      · exact (isPathUnit_unreserved (hliterals s hliteral _ hpercent)).2 rfl
      · exact hdot.elim (hdots s hliteral).1 (hdots s hliteral).2
    refine ⟨fun u hu => ⟨(hunits u hu).1, (hunits u hu).2.1⟩, ?_, ?_⟩
    · rw [← Bool.not_eq_true]
      exact fun hsingle => hspelling (mem_dotSpellings (.inl hsingle))
    · rw [← Bool.not_eq_true]
      exact fun hdouble => hspelling (mem_dotSpellings (.inr hdouble))
  · exact settled_encode hencodable.wellFormed hencodable.single hencodable.double

theorem plain_filled {params : Params} {pattern : List Segment}
    (hliterals : PlainLiterals pattern) (hfits : Fits params pattern)
    (hempty : .literal [] ∉ pattern) : Plain (filled params pattern) := by
  intro s hs
  refine ⟨?_, ?_⟩
  · rintro rfl
    obtain hliteral | ⟨text, hencodable, heq⟩ := mem_filled hfits hs
    · exact hempty hliteral
    · exact encode_ne_nil hencodable.wellFormed hencodable.ne_nil heq.symm
  · intro hslash
    have hunit := isPathUnit_filled hliterals hfits s hs slash hslash
    exact absurd hunit.2.1 (by decide)

theorem filled_ne_nil {params : Params} {pattern : List Segment} (hne : pattern ≠ []) :
    filled params pattern ≠ [] := by
  obtain ⟨s, rest, rfl⟩ := List.exists_cons_of_ne_nil hne
  rw [filled_cons]
  simp [Part.segments_ne_nil params (part s)]

/-! ## The URL -/

theorem lead_cases (path : JsString) :
    (path.head? = some slash ∧ lead path = [[]]) ∨ (path.head? ≠ some slash ∧ lead path = []) := by
  rw [lead]
  by_cases hhead : path.head? = some slash
  · rw [if_pos hhead]
    exact .inl ⟨hhead, rfl⟩
  · rw [if_neg hhead]
    exact .inr ⟨hhead, rfl⟩

theorem not_slashes (path : JsString) {segments : List JsString} (hne : segments ≠ [])
    (h : Plain segments) (k : ℕ) :
    ¬ js "//" <+: join (lead path ++ segments ++ List.replicate k []) := by
  obtain ⟨s, rest, rfl⟩ := List.exists_cons_of_ne_nil hne
  obtain ⟨hs, hslash⟩ := h s List.mem_cons_self
  obtain ⟨u, s, rfl⟩ := List.exists_cons_of_ne_nil hs
  have hu : slash ≠ u := fun heq => hslash (heq ▸ List.mem_cons_self)
  have hslashes : js "//" = [slash, slash] := rfl
  rw [hslashes]
  obtain ⟨-, hlead⟩ | ⟨-, hlead⟩ := lead_cases path
  · rw [hlead]
    intro hpre
    have hcons : [slash, slash] <+: slash :: u :: (s ++
        pathname (rest ++ List.replicate k [])) := hpre
    simp [hu] at hcons
  · rw [hlead]
    intro hpre
    have hcons : [slash, slash] <+: u :: (s ++ pathname (rest ++ List.replicate k [])) := hpre
    simp [hu] at hcons

theorem segmentsOf_filled (path : JsString) {segments : List JsString} (hne : segments ≠ [])
    (h : Plain segments) (hsettled : ∀ s ∈ segments, Settled s) (k : ℕ) :
    segmentsOf (join (lead path ++ segments ++ List.replicate k [])) =
      segments ++ List.replicate k [] := by
  have hall : ∀ s ∈ segments ++ List.replicate k [], Settled s := by
    intro s hs
    obtain hs | hs := List.mem_append.mp hs
    · exact hsettled s hs
    · rw [(List.mem_replicate.mp hs).2]
      exact settled_nil
  obtain ⟨-, hlead⟩ | ⟨-, hlead⟩ := lead_cases path
  · have hwritten := segmentsOf_pathname (by simp [hne]) hall (q := []) (by simp [Ended])
    rwa [hlead, List.append_assoc, List.singleton_append, join_nil_cons, ← List.append_nil (pathname _)]
  · obtain ⟨s, rest, rfl⟩ := List.exists_cons_of_ne_nil hne
    rw [hlead, List.nil_append]
    exact segmentsOf_join (h s List.mem_cons_self).1 hall

/-! ## Addressable paths -/

theorem literal_of_mem_splitPath {route : Route T} {segment : JsString}
    (h : segment ∈ splitPath route.path) (hcolon : segment.head? ≠ some colon)
    (hstar : segment.head? ≠ some star) : .literal segment ∈ route.pattern := by
  rw [Route.pattern]
  refine List.mem_map.mpr ⟨segment, h, ?_⟩
  rw [Segment.ofText, if_neg hstar, if_neg hcolon]

theorem mem_splitPath_of_literal {route : Route T} {text : JsString}
    (h : .literal text ∈ route.pattern) : text ∈ splitPath route.path := by
  obtain ⟨segment, hsegment, heq⟩ := List.mem_map.mp h
  rw [Segment.ofText] at heq
  split at heq
  · simp at heq
  split at heq
  · simp at heq
  · rwa [← Segment.literal.inj heq]

theorem Addressable.pattern {route : Route T} (h : Addressable route.path) {k : ℕ}
    (hk : route.path.splitOn slash =
      lead route.path ++ splitPath route.path ++ List.replicate k []) :
    NoDots route.pattern ∧ .literal [] ∉ route.pattern ∧ k ≤ 1 := by
  have hpath : join (lead route.path ++ splitPath route.path ++ List.replicate k []) =
      route.path := by
    rw [← hk, ← intercalate_eq_join, List.intercalate_splitOn]
  refine ⟨fun text htext => ?_, fun hempty => ?_, ?_⟩
  · refine h.1 text ?_
    rw [hk]
    simp [mem_splitPath_of_literal htext]
  · -- an empty segment stands in front of another one
    obtain ⟨front, back, hsplit⟩ := List.append_of_mem (mem_splitPath_of_literal hempty)
    have hback : back ≠ [] := by
      rintro rfl
      exact getLast?_splitPath route.path (by rw [hsplit]; simp)
    obtain ⟨next, rest, rfl⟩ := List.exists_cons_of_ne_nil hback
    have hfront : lead route.path ++ front ≠ [] := by
      intro hnil
      obtain ⟨hlead, rfl⟩ := List.append_eq_nil_iff.mp hnil
      obtain ⟨-, hlead'⟩ | ⟨hhead, -⟩ := lead_cases route.path
      · simp [hlead'] at hlead
      · refine hhead ?_
        rw [← hpath, hlead, hsplit]
        rfl
    refine h.2 ⟨join (lead route.path ++ front), next ++ pathname (rest ++ List.replicate k []), ?_⟩
    have hsegments : lead route.path ++ splitPath route.path ++ List.replicate k [] =
        lead route.path ++ front ++ ([] :: next :: (rest ++ List.replicate k [])) := by
      rw [hsplit]
      simp
    refine Eq.trans ?_ hpath
    rw [hsegments, join_append hfront, List.append_assoc]
    rfl
  · by_contra hmany
    obtain ⟨m, rfl⟩ : ∃ m, k = m + 2 := ⟨k - 2, by omega⟩
    have hsome : lead route.path ++ splitPath route.path ≠ [] := by
      intro hnil
      obtain ⟨-, hlead⟩ | ⟨hhead, hlead⟩ := lead_cases route.path
      · rw [hlead] at hnil
        simp at hnil
      · rw [hnil, List.nil_append, List.replicate_succ, join, pathname_replicate,
          List.replicate_succ] at hpath
        rw [← hpath] at hhead
        exact hhead rfl
    rw [join_append hsome, pathname_replicate] at hpath
    refine h.2 ⟨join (lead route.path ++ splitPath route.path), List.replicate m slash, ?_⟩
    refine Eq.trans ?_ hpath
    rw [List.replicate_succ, List.replicate_succ, List.append_assoc]
    rfl

theorem trailing_of_slashes {route : Route T} {k : ℕ} (hslashes : js "//" <:+: route.path)
    (hempty : [] ∉ splitPath route.path)
    (hk : route.path.splitOn slash =
      lead route.path ++ splitPath route.path ++ List.replicate k []) : ∃ m, k = m + 2 := by
  refine ⟨k - 2, ?_⟩
  by_contra hfew
  have hinner := inner_of_slashes hslashes
  rw [hk] at hinner
  have htail : ∀ segments : List JsString, [] ∉ segments →
      [] ∉ (segments ++ List.replicate k []).dropLast := by
    intro segments hnone hmem
    obtain rfl | rfl : k = 0 ∨ k = 1 := by omega
    · rw [List.replicate_zero, List.append_nil] at hmem
      exact hnone (List.dropLast_subset _ hmem)
    · rw [List.replicate_one, List.dropLast_concat] at hmem
      exact hnone hmem
  obtain ⟨-, hlead⟩ | ⟨-, hlead⟩ := lead_cases route.path
  · rw [hlead, List.append_assoc, List.singleton_append, List.tail_cons] at hinner
    exact htail _ hempty hinner
  · rw [hlead, List.nil_append] at hinner
    cases hsplit : splitPath route.path with
    | nil =>
      rw [hsplit, List.nil_append] at hinner
      obtain rfl | rfl : k = 0 ∨ k = 1 := by omega
      · simp at hinner
      · simp at hinner
    | cons s rest =>
      rw [hsplit] at hinner hempty
      rw [List.cons_append, List.tail_cons] at hinner
      exact htail rest (fun hmem => hempty (List.mem_cons_of_mem _ hmem)) hinner

theorem mem_splitPath_of_ne_nil {path segment : JsString} {k : ℕ} (hne : segment ≠ [])
    (h : segment ∈ lead path ++ splitPath path ++ List.replicate k []) :
    segment ∈ splitPath path := by
  obtain h | h := List.mem_append.mp h
  · obtain h | h := List.mem_append.mp h
    · obtain ⟨-, hlead⟩ | ⟨-, hlead⟩ := lead_cases path
      · rw [hlead] at h
        exact absurd (List.mem_singleton.mp h) hne
      · rw [hlead] at h
        simp at h
    · exact h
  · exact absurd (List.mem_replicate.mp h).2 hne

theorem isPathUnit_around {route : Route T} {params : Params} {k : ℕ}
    (hliterals : PlainLiterals route.pattern) (hfits : Fits params route.pattern) :
    ∀ s ∈ lead route.path ++ filled params route.pattern ++ List.replicate k [],
      ∀ u ∈ s, IsPathUnit u := by
  intro s hs u hu
  obtain hs | hs := List.mem_append.mp hs
  · obtain hs | hs := List.mem_append.mp hs
    · obtain ⟨-, hlead⟩ | ⟨-, hlead⟩ := lead_cases route.path
      · rw [hlead] at hs
        rw [List.mem_singleton.mp hs] at hu
        simp at hu
      · rw [hlead] at hs
        simp at hs
    · exact isPathUnit_filled hliterals hfits s hs u hu
  · rw [(List.mem_replicate.mp hs).2] at hu
    simp at hu

section Requests

variable [UrlParser]

open UrlParser

theorem requestUrl_eq_ok {route : Route T} {params : Params} {baseUrl : JsString} {base url : Url}
    {appendQuery : Option JsString → Option JsString} (hbase : parse baseUrl = some base)
    (h : requestUrl route.path params baseUrl appendQuery = .ok url) :
    ∃ k sent, Fits params route.pattern ∧
      route.path.splitOn slash = lead route.path ++ splitPath route.path ++ List.replicate k [] ∧
      resolveReference base (join (lead route.path ++ filled params route.pattern ++
        List.replicate k [])) = some sent ∧
      url.segments = sent.segments := by
  obtain ⟨k, hsegments, hfits, hk⟩ := template_segments route
  obtain ⟨path, hbuilt, hsent⟩ := Fallible.bind_eq_ok.mp h
  obtain ⟨hall, rfl⟩ := buildPath_eq_ok.mp hbuilt
  rw [hbase, Option.bind_some, hsegments] at hsent
  split at hsent
  · simp [throw, throwThe, MonadExceptOf.throw] at hsent
  · rename_i sent hresolve
    obtain rfl := Except.ok.inj hsent
    exact ⟨k, sent, (hfits params).mp hall, hk, hresolve, rfl⟩

theorem segments_request {base sent : Url} (hpath : base.segments = [[]]) {s : JsString}
    (hplain : PlainPath s) (h : resolveReference base s = some sent) :
    ∃ rest, sent.segments = segmentsOf rest := by
  by_cases hslashes : js "//" <+: s
  · obtain ⟨rest, rfl⟩ := hslashes
    rw [resolveReference_authority hplain] at h
    obtain ⟨authority, -, rfl⟩ := Option.map_eq_some_iff.mp h
    exact ⟨_, rfl⟩
  · obtain ⟨query, hquery⟩ := resolveReference_path hpath hplain hslashes
    rw [hquery] at h
    obtain rfl := Option.some.inj h
    exact ⟨_, rfl⟩

theorem pathname_request {route : Route T} {params : Params} {base sent : Url} {k : ℕ}
    (hpath : base.segments = [[]]) (hliterals : PlainLiterals route.pattern)
    (hfits : Fits params route.pattern) (hdots : NoDots route.pattern)
    (hempty : .literal [] ∉ route.pattern) (hk : k ≤ 1 ∨ route.pattern ≠ [])
    (h : resolveReference base (join (lead route.path ++ filled params route.pattern ++
      List.replicate k [])) = some sent) :
    ∃ m, sent.segments = filled params route.pattern ++ List.replicate m [] ∧ sent.segments ≠ [] ∧
      (m = k ∨ (m ≤ 1 ∧ k ≤ 1)) := by
  have hplain := plain_filled hliterals hfits hempty
  have hsettled := settled_filled hliterals hfits hdots
  have hjoined := plainPath_join (@isPathUnit_around _ route _ k hliterals hfits)
  by_cases hnil : route.pattern = []
  · obtain hk | hne := hk
    · have hfilled : filled params route.pattern = [] := by rw [hnil]; rfl
      rw [hfilled, List.append_nil] at h hjoined
      rw [hfilled]
      have hshort : join (lead route.path ++ List.replicate k []) = [] ∨
          join (lead route.path ++ List.replicate k []) = [slash] := by
        obtain ⟨-, hlead⟩ | ⟨-, hlead⟩ := lead_cases route.path
        · obtain rfl | rfl : k = 0 ∨ k = 1 := by omega
          · exact .inl (by rw [hlead]; rfl)
          · exact .inr (by rw [hlead]; rfl)
        · obtain rfl | rfl : k = 0 ∨ k = 1 := by omega
          · exact .inl (by rw [hlead]; rfl)
          · exact .inl (by rw [hlead]; rfl)
      have hslashes : ¬ js "//" <+: join (lead route.path ++ List.replicate k []) := by
        obtain hs | hs := hshort
        · rw [hs]
          decide
        · rw [hs]
          decide
      have hroot : segmentsOf (join (lead route.path ++ List.replicate k [])) = [[]] := by
        obtain hs | hs := hshort
        · rw [hs]
          decide
        · rw [hs]
          decide
      obtain ⟨query, hquery⟩ := resolveReference_path hpath hjoined hslashes
      rw [hquery] at h
      obtain rfl := Option.some.inj h
      exact ⟨1, hroot, by rw [hroot]; simp, .inr ⟨Nat.le_refl 1, hk⟩⟩
    · exact absurd hnil hne
  · have hfilled := @filled_ne_nil params _ hnil
    obtain ⟨query, hquery⟩ := resolveReference_path hpath hjoined
      (not_slashes route.path hfilled hplain k)
    rw [hquery] at h
    obtain rfl := Option.some.inj h
    have hsegments := segmentsOf_filled route.path hfilled hplain hsettled k
    exact ⟨k, hsegments, by rw [hsegments]; simp [hfilled], .inl rfl⟩

theorem addressable_of_find {calls : List (Call T)} {route : Route T} {params : Params}
    {base sent : Url} {k : ℕ} (hpath : base.segments = [[]])
    (hhost : parseAuthority base.protocol [] = none) (hliterals : PlainLiterals route.pattern)
    (hfits : Fits params route.pattern)
    (hk : route.path.splitOn slash =
      lead route.path ++ splitPath route.path ++ List.replicate k [])
    (h : resolveReference base (join (lead route.path ++ filled params route.pattern ++
      List.replicate k [])) = some sent)
    (hmatch : shapeMatches route.pattern (splitPath (pathname sent.segments)) = true)
    {method : HttpMethod} {result : RouteMatch T}
    (hfind : (Router.after calls).find method (pathname sent.segments) = some result) :
    Addressable route.path := by
  have hplain : PlainPath (join (lead route.path ++ filled params route.pattern ++
      List.replicate k [])) := plainPath_join (isPathUnit_around hliterals hfits)
  obtain ⟨rest, hrest⟩ := segments_request hpath hplain h
  have hsettled : ∀ s ∈ sent.segments, Settled s := hrest ▸ segmentsOf_settled rest
  have hne : sent.segments ≠ [] := hrest ▸ segmentsOf_ne_nil rest
  have hguard : isTraversal (pathname sent.segments) = false := by
    rw [← Bool.not_eq_true]
    intro htraversal
    rw [Router.find, if_pos htraversal] at hfind
    simp at hfind
  have hhead : (pathname sent.segments).head? = some slash := by
    obtain ⟨s, rest, hcons⟩ := List.exists_cons_of_ne_nil hne
    rw [hcons]
    rfl
  -- the segments of a URL are no dot segments
  have hnodots : NoDots route.pattern := by
    intro text htext
    have hmem := mem_of_shapeMatches hmatch htext
    obtain ⟨m, hm⟩ := splitOn_path (pathname sent.segments)
    have hslash : ∀ s ∈ sent.segments, slash ∉ s := by
      intro s hs hslash
      exact absurd ((hsettled s hs).kept slash hslash).2 (by decide)
    rw [splitOn_pathname hslash] at hm
    have hsegment : text ∈ ([] : JsString) :: sent.segments := by
      rw [hm]
      simp [hmem]
    obtain rfl | hsegment := List.mem_cons.mp hsegment
    · exact ⟨by decide, by decide⟩
    · constructor
      · rintro rfl
        exact absurd (hsettled _ hsegment).single (by decide)
      · rintro rfl
        exact absurd (hsettled _ hsegment).double (by decide)
  have hempty : .literal [] ∉ route.pattern := by
    intro hempty
    rw [isTraversal_of_mem hhead (mem_of_shapeMatches hmatch hempty)] at hguard
    exact absurd hguard (by decide)
  refine ⟨fun segment hsegment => ?_, fun hslashes => ?_⟩
  · constructor
    · rintro rfl
      refine (hnodots _ (literal_of_mem_splitPath ?_ (by decide) (by decide))).1 rfl
      rw [hk] at hsegment
      exact mem_splitPath_of_ne_nil (by decide) hsegment
    · rintro rfl
      refine (hnodots _ (literal_of_mem_splitPath ?_ (by decide) (by decide))).2 rfl
      rw [hk] at hsegment
      exact mem_splitPath_of_ne_nil (by decide) hsegment
  · have hnone : [] ∉ splitPath route.path :=
      fun hmem => hempty (literal_of_mem_splitPath hmem (by simp) (by simp))
    obtain ⟨m, rfl⟩ := trailing_of_slashes hslashes hnone hk
    by_cases hnil : route.pattern = []
    · -- nothing but slashes: they would stand in front of an empty authority
      have hfilled : filled params route.pattern = [] := by rw [hnil]; rfl
      have hpieces : splitPath route.path = [] := List.map_eq_nil_iff.mp hnil
      have hlead : lead route.path = [[]] := by
        obtain ⟨-, hlead⟩ | ⟨hhead', hlead⟩ := lead_cases route.path
        · exact hlead
        · refine absurd ?_ hhead'
          rw [← @List.intercalate_splitOn _ route.path _ _ slash, hk, hlead, hpieces,
            intercalate_eq_join]
          rfl
      have hout : join (lead route.path ++ filled params route.pattern ++
          List.replicate (m + 2) []) = js "//" ++ List.replicate m slash := by
        rw [hfilled, hlead, List.append_nil, List.singleton_append, join_nil_cons,
          pathname_replicate]
        rfl
      rw [hout] at h hplain
      rw [resolveReference_authority hplain, parseBehind] at h
      have hdrop : (List.replicate m slash).dropWhile isSlash = [] := by
        rw [List.dropWhile_eq_nil_iff]
        intro u hu
        rw [(List.mem_replicate.mp hu).2]
        rfl
      rw [hdrop, List.takeWhile_nil, hhost] at h
      simp at h
    · obtain ⟨m', hsegments, -, hm'⟩ :=
        pathname_request hpath hliterals hfits hnodots hempty (.inr hnil) h
      obtain rfl : m' = m + 2 := by omega
      rw [hsegments, isTraversal_trailing] at hguard
      exact absurd hguard (by decide)

/-- **The typed client, for every route table.** Whatever the values, the URL that is sent matches
the pattern of a route whose path is addressable. When no other pattern matches and the values are
clear, the client reaches the route with the values exactly if the path is addressable; and it throws
for every value that is empty or a dot segment. -/
theorem client_reaches_iff {calls : List (Call T)} {route : Route T}
    (hroute : route ∈ Router.registrations calls) (hliterals : PlainLiterals route.pattern)
    (params : Params) {baseUrl : JsString} {base : Url} (hbase : parse baseUrl = some base)
    (hpath : base.segments = [[]]) (hhost : parseAuthority base.protocol [] = none)
    (appendQuery : Option JsString → Option JsString) :
    (∀ url, requestUrl route.path params baseUrl appendQuery = .ok url →
      (Addressable route.path → shapeMatches route.pattern (splitPath url.pathname) = true) ∧
      (Router.Isolated (Router.registrations calls) route url.pathname →
        Clear route.pattern params →
          ((shapeMatches route.pattern (splitPath url.pathname) = true ∧
              Returns calls route params url.pathname) ↔ Addressable route.path))) ∧
    (HasEmptyOrDots route.pattern params →
      ∃ error, requestUrl route.path params baseUrl appendQuery = .error error) := by
  obtain ⟨names, hscan⟩ := Router.scanCaptures_of_registered hroute
  have hlast := (scanCaptures_ok hscan).1
  refine ⟨fun url hurl => ?_, ?_⟩
  · obtain ⟨k, sent, hfits, hk, hresolve, hsent⟩ := requestUrl_eq_ok hbase hurl
    rw [Url.pathname, hsent]
    have hsegments : Addressable route.path → ∃ m ≤ 1, sent.segments =
        filled params route.pattern ++ List.replicate m [] ∧ sent.segments ≠ [] := by
      intro haddressable
      obtain ⟨hdots, hempty, hone⟩ := haddressable.pattern hk
      obtain ⟨m, hsegments, hne, hm⟩ :=
        pathname_request hpath hliterals hfits hdots hempty (.inl hone) hresolve
      exact ⟨m, by omega, hsegments, hne⟩
    have hsplit : Addressable route.path →
        splitPath (pathname sent.segments) = filled params route.pattern := by
      intro haddressable
      obtain ⟨m, -, hm, -⟩ := hsegments haddressable
      rw [hm, splitPath_pathname (plain_filled hliterals hfits (haddressable.pattern hk).2.1)]
    have hshape : Addressable route.path →
        shapeMatches route.pattern (splitPath (pathname sent.segments)) = true := by
      intro haddressable
      rw [hsplit haddressable]
      exact shapeMatches_filled hlast
    refine ⟨hshape, fun hisolated hclear => ⟨?_, fun haddressable => ⟨hshape haddressable, ?_⟩⟩⟩
    · rintro ⟨hmatch, result, hfind, -, -⟩
      exact addressable_of_find hpath hhost hliterals hfits hk hresolve hmatch hfind
    · obtain ⟨m, hm, heq, hne⟩ := hsegments haddressable
      obtain ⟨hdots, hempty, -⟩ := haddressable.pattern hk
      have hsettled := settled_filled hliterals hfits hdots
      have hguard : isTraversal (pathname sent.segments) = false := by
        rw [heq]
        refine isTraversal_pathname (plain_filled hliterals hfits hempty) (fun hmem => ?_) hm
        exact absurd (hsettled _ hmem).double (by decide)
      have hhead : (pathname sent.segments).head? = some slash := by
        obtain ⟨s, rest, hcons⟩ := List.exists_cons_of_ne_nil hne
        rw [hcons]
        rfl
      have hmatches : routeMatches route.pattern (splitPath (pathname sent.segments)) = true := by
        rw [hsplit haddressable, routeMatches_iff]
        exact ⟨shapeMatches_filled hlast, captured_filled hlast hfits hclear⟩
      obtain ⟨result, hfind, hhandler, hentries⟩ :=
        Router.find_isolated hroute hhead hguard hmatches hisolated
      refine ⟨result, hfind, hhandler, ?_⟩
      rw [hentries, hsplit haddressable, bindings_filled hlast hfits]
  · rintro ⟨s, hs, name, hname, value, hvalue, text, htext, hbad⟩
    cases hrequest : requestUrl route.path params baseUrl appendQuery with
    | error error => exact ⟨error, rfl⟩
    | ok url =>
      obtain ⟨k, sent, hfits, -⟩ := requestUrl_eq_ok hbase hrequest
      have hfit := hfits s hs
      have hencodable : Encodable text := by
        cases s with
        | literal literal => simp [Segment.captureName] at hname
        | param name' =>
          obtain rfl := Option.some.inj hname
          obtain ⟨value', hvalue', hall⟩ := hfit
          rw [hvalue] at hvalue'
          obtain rfl := Option.some.inj hvalue'
          exact hall text htext
        | wildcard name' =>
          obtain rfl := Option.some.inj hname
          obtain ⟨value', hvalue', hall⟩ := hfit
          rw [hvalue] at hvalue'
          obtain rfl := Option.some.inj hvalue'
          exact hall text htext
      obtain hnil | hone | htwo := hbad
      · exact absurd hnil hencodable.ne_nil
      · exact absurd hone hencodable.single
      · exact absurd htwo hencodable.double

end Requests

abbrev hostNames : UrlParser where
  parseAuthority _ host := if host = [] then none else some { hostname := host }
  parseOther _ := none

def bookRoute : Route ℕ := ⟨.get, js "/books/:id/files/*", 1, none⟩

def bookParams : Params :=
  ((∅ : Params).set (js "id") (js "a b%é")).set (js "wildcard") (js "x/..y")

theorem bookRoute_pattern : bookRoute.pattern = [.literal (js "books"), .param (js "id"),
    .literal (js "files"), .wildcard (js "wildcard")] := by
  decide

theorem clear_bookParams : Clear bookRoute.pattern bookParams := by
  rw [bookRoute_pattern]
  intro s hs name hname value hvalue
  simp only [List.mem_cons, List.not_mem_nil, or_false] at hs
  obtain rfl | rfl | rfl | rfl := hs
  · simp [Segment.captureName] at hname
  · obtain rfl := Option.some.inj hname
    have hid : bookParams.get? (js "id") = some (js "a b%é") := by decide
    obtain rfl := Option.some.inj (hid.symm.trans hvalue)
    decide
  · simp [Segment.captureName] at hname
  · obtain rfl := Option.some.inj hname
    have hwildcard : bookParams.get? (js "wildcard") = some (js "x/..y") := by decide
    obtain rfl := Option.some.inj (hwildcard.symm.trans hvalue)
    decide

theorem plainLiterals_bookRoute : PlainLiterals bookRoute.pattern := by
  have hall : ∀ text ∈ [js "books", js "files"], ∀ u ∈ text, isUnreserved u = true := by
    decide
  rw [bookRoute_pattern]
  intro text htext
  exact hall text (by simpa using htext)

theorem client_reaches_example :
    ∃ url, @requestUrl hostNames bookRoute.path bookParams (js "http://api.example") id = .ok url ∧
      shapeMatches bookRoute.pattern (splitPath url.pathname) = true ∧
      Returns [.add bookRoute] bookRoute bookParams url.pathname := by
  obtain ⟨url, hurl⟩ : ∃ url,
      @requestUrl hostNames bookRoute.path bookParams (js "http://api.example") id = .ok url :=
    ⟨⟨js "http:", { hostname := js "api.example" },
      [js "books", js "a%20b%25%C3%A9", js "files", js "x", js "..y"], none⟩, by decide⟩
  have hroutes : Router.registrations [Call.add bookRoute] = [bookRoute] := by decide
  have hreaches := (@client_reaches_iff ℕ hostNames [Call.add bookRoute] bookRoute
    (by rw [hroutes]; exact List.mem_singleton.mpr rfl) plainLiterals_bookRoute bookParams
    (js "http://api.example") ⟨js "http:", { hostname := js "api.example" }, [[]], none⟩
    (by decide) rfl rfl id).1 url hurl
  refine ⟨url, hurl, (hreaches.2 ?_ clear_bookParams).mpr (by decide)⟩
  intro other hother _
  rw [hroutes] at hother
  rw [List.mem_singleton.mp hother]

/-- A route with a dot segment: the URL parser resolves it, and the request goes to `/b`. -/
theorem dots_are_resolved :
    let route : Route ℕ := ⟨.get, js "/a/../b", 1, none⟩
    route ∈ Router.registrations [Call.add route] ∧
      (∀ segment ∈ splitPath route.path, ∀ u ∈ segment, isUnreserved u = true) ∧
      ∃ url, @requestUrl hostNames route.path ∅ (js "http://api.example") id = .ok url ∧
        url.pathname = js "/b" ∧
        shapeMatches route.pattern (splitPath url.pathname) = false := by
  refine ⟨by decide, by decide,
    ⟨js "http:", { hostname := js "api.example" }, [js "b"], none⟩, ?_⟩
  decide

end Daloy.Client
