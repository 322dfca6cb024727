import Daloy.Foundations.Fallible
import Daloy.Foundations.JsMap
import Daloy.Foundations.UriEncoding
import Daloy.Foundations.UrlReferences
import Daloy.Routing.Paths

/-! # The typed client's URL

`src/client.ts`, from the path of a route and the values of a call to the URL that is sent.

* `compilePathTemplate`, `buildPath`, `encodeSegment`: as in the source. `params` holds the string of
  each value that is neither `undefined` nor `null`.
* `requestUrl`: the first lines of a generated method. What it appends to the query is any function.
* `buildPath_eq_ok`: what is built, and when.
-/

namespace Daloy.Client
set_option autoImplicit false

open Daloy.Unicode Daloy.UrlStandard Daloy.Routing

/-- An entry of `PathTemplate`. -/
inductive Part
  | text (segment : JsString)
  | capture (name : JsString) (wildcard : Bool)
  deriving DecidableEq

abbrev PathTemplate := List Part

def Part.ofSegment (seg : JsString) : Part :=
  if seg.head? = some colon then .capture (seg.drop 1) false
  else if seg.head? = some star then
    .capture (if 1 < seg.length then seg.drop 1 else js "wildcard") true
  else .text seg

def compilePathTemplate (path : JsString) : PathTemplate :=
  (path.splitOn slash).map Part.ofSegment

/-- What a generated method throws before it sends. -/
inductive ClientError
  | typeError (message : JsString)
  | uriError
  | invalidUrl
  deriving DecidableEq

def missingParameter (name routePath : JsString) : ClientError :=
  .typeError (js "Missing path parameter \"" ++ name ++ js "\" for " ++ routePath)

def invalidParameter (name routePath : JsString) : ClientError :=
  .typeError (js "Invalid path parameter \"" ++ name ++ js "\" for " ++ routePath ++
    js ": empty and \".\"/\"..\" segments are not allowed")

def encodeSegment (value name routePath : JsString) : Except ClientError JsString :=
  if value = [] ∨ value = js "." ∨ value = js ".." then .error (invalidParameter name routePath)
  else
    match encodeURIComponent value with
    | none => .error .uriError
    | some encoded => .ok encoded

/-- The inner loop of `buildPath`, with `j` and `out`. -/
def encodePieces (name routePath : JsString) :
    (pieces : List JsString) → (j : ℕ) → (out : JsString) → Except ClientError JsString
  | [], _, out => .ok out
  | piece :: pieces, j, out => do
    let out := if 0 < j then out ++ [slash] else out
    let encoded ← encodeSegment piece name routePath
    encodePieces name routePath pieces (j + 1) (out ++ encoded)

abbrev Params := JsMap JsString JsString

/-- The loop of `buildPath`, with `i` and `out`. -/
def buildParts (routePath : JsString) (params : Params) :
    (template : PathTemplate) → (i : ℕ) → (out : JsString) → Except ClientError JsString
  | [], _, out => .ok out
  | .text segment :: template, i, out =>
    let out := if 0 < i then out ++ [slash] else out
    buildParts routePath params template (i + 1) (out ++ segment)
  | .capture name wildcard :: template, i, out =>
    let out := if 0 < i then out ++ [slash] else out
    match params.get? name with
    | none => .error (missingParameter name routePath)
    | some value =>
      if wildcard = false then do
        let encoded ← encodeSegment value name routePath
        buildParts routePath params template (i + 1) (out ++ encoded)
      else do
        let out ← encodePieces name routePath (value.splitOn slash) 0 out
        buildParts routePath params template (i + 1) out

def buildPath (template : PathTemplate) (routePath : JsString) (params : Params) :
    Except ClientError JsString :=
  buildParts routePath params template 0 []

/-- The URL that the method generated for a route sends, given the string of `opts.baseUrl` and what
the entries of `input.query` make of the query. -/
def requestUrl [UrlParser] (routePath : JsString) (params : Params) (baseUrl : JsString)
    (appendQuery : Option JsString → Option JsString) : Except ClientError Url := do
  let path ← buildPath (compilePathTemplate routePath) routePath params
  match (parse baseUrl).bind fun base => resolveReference base path with
  | none => throw .invalidUrl
  | some url => return { url with query := appendQuery url.query }

/-! ## What is built -/

/-- A text that `encodeSegment` takes. -/
structure Encodable (value : JsString) : Prop where
  wellFormed : WellFormed value
  ne_nil : value ≠ []
  single : value ≠ js "."
  double : value ≠ js ".."

theorem encodeSegment_eq_ok {value name routePath out : JsString} :
    encodeSegment value name routePath = .ok out ↔
      Encodable value ∧ out = encodeWith keptInComponent value := by
  rw [encodeSegment, encodeURIComponent]
  constructor
  · intro h
    split at h
    · simp at h
    · rename_i hvalue
      simp only [not_or] at hvalue
      split at h
      · simp at h
      · rename_i encoded hencoded
        split at hencoded
        · rename_i hformed
          exact ⟨⟨hformed, hvalue.1, hvalue.2.1, hvalue.2.2⟩,
            (Except.ok.inj h).symm.trans (Option.some.inj hencoded).symm⟩
        · simp at hencoded
  · rintro ⟨⟨hformed, hne, hsingle, hdouble⟩, rfl⟩
    rw [if_neg (by simp [hne, hsingle, hdouble]), if_pos hformed]

def texts (wildcard : Bool) (value : JsString) : List JsString :=
  if wildcard = true then value.splitOn slash else [value]

def Part.segments (params : Params) : Part → List JsString
  | .text segment => [segment]
  | .capture name wildcard =>
    (texts wildcard ((params.get? name).getD [])).map (encodeWith keptInComponent)

def Part.Fits (params : Params) : Part → Prop
  | .text _ => True
  | .capture name wildcard =>
    ∃ value, params.get? name = some value ∧ ∀ text ∈ texts wildcard value, Encodable text

theorem Part.segments_ne_nil (params : Params) (part : Part) : part.segments params ≠ [] := by
  cases part with
  | text segment => simp [segments]
  | capture name wildcard =>
    rw [segments, texts]
    split
    · simpa using List.splitOn_ne_nil _ _
    · simp

/-- What a loop appends to `out` for the segments that are left, in its turn `i`. -/
def appended (i : ℕ) (segments : List JsString) : JsString :=
  if 0 < i then pathname segments else join segments

theorem appended_cons (i : ℕ) (s : JsString) (rest : List JsString) :
    appended i (s :: rest) = (if 0 < i then [slash] else []) ++ s ++ pathname rest := by
  rw [appended]
  split
  · rfl
  · rfl

theorem appended_append {i : ℕ} {segments : List JsString} (hne : segments ≠ [])
    (rest : List JsString) : appended i (segments ++ rest) = appended i segments ++ pathname rest := by
  obtain ⟨s, tail, rfl⟩ := List.exists_cons_of_ne_nil hne
  rw [List.cons_append, appended_cons, appended_cons, pathname, pathname, List.flatMap_append]
  simp [pathname]

theorem encodePieces_eq_ok {name routePath out out' : JsString} {pieces : List JsString} {j : ℕ} :
    encodePieces name routePath pieces j out = .ok out' ↔
      (∀ piece ∈ pieces, Encodable piece) ∧
        out' = out ++ appended j (pieces.map (encodeWith keptInComponent)) := by
  induction pieces generalizing j out with
  | nil =>
    have hnil : appended j [] = [] := by simp [appended, join, pathname]
    simp [encodePieces, hnil, eq_comm]
  | cons piece pieces ih =>
    rw [encodePieces, Fallible.bind_eq_ok, List.forall_mem_cons, List.map_cons, appended_cons]
    have hjoin : ∀ encoded : JsString,
        (if 0 < j then out ++ [slash] else out) ++ encoded ++
            appended (j + 1) (pieces.map (encodeWith keptInComponent)) =
          out ++ ((if 0 < j then [slash] else []) ++ encoded ++
            pathname (pieces.map (encodeWith keptInComponent))) := by
      intro encoded
      rw [appended, if_pos (Nat.succ_pos j)]
      split <;> simp
    constructor
    · rintro ⟨encoded, hencoded, hrest⟩
      obtain ⟨hpiece, rfl⟩ := encodeSegment_eq_ok.mp hencoded
      obtain ⟨hpieces, rfl⟩ := ih.mp hrest
      exact ⟨⟨hpiece, hpieces⟩, hjoin _⟩
    · rintro ⟨⟨hpiece, hpieces⟩, rfl⟩
      exact ⟨_, encodeSegment_eq_ok.mpr ⟨hpiece, rfl⟩, ih.mpr ⟨hpieces, (hjoin _).symm⟩⟩

theorem buildParts_eq_ok {routePath out out' : JsString} {params : Params}
    {template : PathTemplate} {i : ℕ} :
    buildParts routePath params template i out = .ok out' ↔
      (∀ part ∈ template, part.Fits params) ∧
        out' = out ++ appended i (template.flatMap fun part => part.segments params) := by
  induction template generalizing i out with
  | nil =>
    have hnil : appended i [] = [] := by simp [appended, join, pathname]
    simp [buildParts, hnil, eq_comm]
  | cons part template ih =>
    have hjoin : ∀ s : JsString, (if 0 < i then out ++ [slash] else out) ++ s ++
        appended (i + 1) (template.flatMap fun part => part.segments params) =
          out ++ ((if 0 < i then [slash] else []) ++ s ++
            pathname (template.flatMap fun part => part.segments params)) := by
      intro s
      rw [appended, if_pos (Nat.succ_pos i)]
      split <;> simp
    rw [List.forall_mem_cons, List.flatMap_cons,
      appended_append (Part.segments_ne_nil params part)]
    cases part with
    | text segment =>
      have htext : appended i [segment] = (if 0 < i then [slash] else []) ++ segment := by
        rw [appended_cons, pathname, List.flatMap_nil, List.append_nil]
      have hfits : (Part.text segment).Fits params ↔ True := Iff.rfl
      rw [buildParts, ih, hjoin, Part.segments, htext, hfits, true_and]
    | capture name wildcard =>
      rw [buildParts]
      cases hvalue : params.get? name with
      | none => simp [Part.Fits, hvalue]
      | some value =>
        have hfits : (Part.capture name wildcard).Fits params ↔
            ∀ text ∈ texts wildcard value, Encodable text := by
          simp [Part.Fits, hvalue]
        have hsegments : (Part.capture name wildcard).segments params =
            (texts wildcard value).map (encodeWith keptInComponent) := by
          rw [Part.segments, hvalue, Option.getD_some]
        rw [hfits, hsegments]
        dsimp only
        cases wildcard with
        | false =>
          rw [if_pos rfl, Fallible.bind_eq_ok]
          simp only [encodeSegment_eq_ok, ih, hjoin, texts, Bool.false_eq_true, if_false,
            List.forall_mem_singleton, List.map_cons, List.map_nil, appended_cons, pathname,
            List.flatMap_nil, List.append_nil, List.append_assoc]
          constructor
          · rintro ⟨encoded, ⟨hencodable, rfl⟩, hrest, rfl⟩
            exact ⟨⟨hencodable, hrest⟩, rfl⟩
          · rintro ⟨⟨hencodable, hrest⟩, rfl⟩
            exact ⟨_, ⟨hencodable, rfl⟩, hrest, rfl⟩
        | true =>
          rw [if_neg (by simp), Fallible.bind_eq_ok]
          simp only [encodePieces_eq_ok, ih, texts, if_true]
          have happended : appended 0 ((value.splitOn slash).map (encodeWith keptInComponent)) =
              join ((value.splitOn slash).map (encodeWith keptInComponent)) := rfl
          obtain ⟨first, rest, hsplit⟩ := List.exists_cons_of_ne_nil (List.splitOn_ne_nil slash value)
          constructor
          · rintro ⟨mid, ⟨hencodable, rfl⟩, hrest, rfl⟩
            refine ⟨⟨hencodable, hrest⟩, ?_⟩
            rw [hsplit, List.map_cons, appended_cons, appended_cons, appended,
              if_pos (Nat.succ_pos i)]
            split <;> simp
          · rintro ⟨⟨hencodable, hrest⟩, rfl⟩
            refine ⟨_, ⟨hencodable, rfl⟩, hrest, ?_⟩
            rw [hsplit, List.map_cons, appended_cons, appended_cons, appended,
              if_pos (Nat.succ_pos i)]
            split <;> simp

theorem buildPath_eq_ok {template : PathTemplate} {routePath out : JsString} {params : Params} :
    buildPath template routePath params = .ok out ↔
      (∀ part ∈ template, part.Fits params) ∧
        out = join (template.flatMap fun part => part.segments params) := by
  rw [buildPath, buildParts_eq_ok, List.nil_append]
  rfl

end Daloy.Client
