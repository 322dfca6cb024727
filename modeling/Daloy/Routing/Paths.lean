import Daloy.Foundations.UriComponent
import Mathlib.Data.List.Induction
import Mathlib.Data.List.Infix

/-! # Paths, their segments and what a capture may bind

The string helpers of `src/router.ts`.

* `trimTrailingSlashes`, `splitPath`: a path as its segments.
* `safeDecodeURIComponent`, `decodeSegments`: the value that a capture binds, if it may bind one.
  They record a decoded separator in the flag `sawEncodedSeparator`, which they are given and give
  back.
* `staticKey_splitPath`: the key of a path's segments is the path without its trailing slashes.
-/

namespace Daloy.Routing
set_option autoImplicit false

open Daloy.Unicode

def slash : UInt16 := 47
def backslash : UInt16 := 92
def dot : UInt16 := 46
def colon : UInt16 := 58
def star : UInt16 := 42

/-! ## Trimming and splitting -/

/-- The loop of `trimTrailingSlashes`: where the path ends, looking left from `stop`. -/
def trimmedLength (path : JsString) : ℕ → ℕ
  | 0 => 0
  | 1 => 1
  | n + 2 => if path[n + 1]? = some slash then trimmedLength path (n + 1) else n + 2

def trimTrailingSlashes (path : JsString) : JsString :=
  if path.length = 0 then [slash] else path.take (trimmedLength path path.length)

def splitPath (path : JsString) : List JsString :=
  let clean := trimTrailingSlashes path
  if clean = [slash] then []
  else (if clean.head? = some slash then clean.drop 1 else clean).splitOn slash

/-- `"/" + segments.join("/")`. -/
def staticKey (segments : List JsString) : JsString := slash :: [slash].intercalate segments

/-- `path.includes("/../") || path.endsWith("/..") || path.includes("//")`, the guard of both
lookups. -/
def isTraversal (path : JsString) : Bool :=
  decide (js "/../" <:+: path) || decide (js "/.." <:+ path) || decide (js "//" <:+: path)

/-! ## Decoding -/

def isDotSegment (segment : JsString) : Bool := segment = [dot] || segment = [dot, dot]

/-- The loop of `hasUnsafeDecodedContent`, with `component` what was read since the last separator;
the end of the text counts as one. Answers the verdict and the flag. -/
def hasUnsafeDecodedContentFrom (component : JsString) :
    (decoded : JsString) → (sawEncodedSeparator : Bool) → Bool × Bool
  | [], saw => (isDotSegment component, saw)
  | c :: decoded, saw =>
    if c.toNat < 32 ∨ c = 127 then (true, saw)
    else if c = slash ∨ c = backslash then
      if isDotSegment component then (true, true)
      else hasUnsafeDecodedContentFrom [] decoded true
    else hasUnsafeDecodedContentFrom (component ++ [c]) decoded saw

def hasUnsafeDecodedContent (decoded : JsString) (sawEncodedSeparator : Bool) : Bool × Bool :=
  hasUnsafeDecodedContentFrom [] decoded sawEncodedSeparator

def safeDecodeURIComponent (segment : JsString) (sawEncodedSeparator : Bool) :
    Option JsString × Bool :=
  if !segment.contains percentSign then
    (if isDotSegment segment then none else some segment, sawEncodedSeparator)
  else
    match decodeURIComponent segment with
    | none => (none, sawEncodedSeparator)
    | some decoded =>
      -- `||` does not look at the content of a dot segment
      if isDotSegment decoded then (none, sawEncodedSeparator)
      else
        match hasUnsafeDecodedContent decoded sawEncodedSeparator with
        | (true, saw) => (none, saw)
        | (false, saw) => (some decoded, saw)

/-- The loop of `decodeSegments`. -/
def decodeParts : List JsString → Bool → Option (List JsString) × Bool
  | [], saw => (some [], saw)
  | segment :: segments, saw =>
    match safeDecodeURIComponent segment saw with
    | (none, saw) => (none, saw)
    | (some decoded, saw) =>
      match decodeParts segments saw with
      | (none, saw) => (none, saw)
      | (some parts, saw) => (some (decoded :: parts), saw)

/-- `decodeSegments(segs, index)`, given the segments from `index` on. -/
def decodeSegments (segments : List JsString) (sawEncodedSeparator : Bool) :
    Option JsString × Bool :=
  match decodeParts segments sawEncodedSeparator with
  | (none, saw) => (none, saw)
  | (some parts, saw) => (some ([slash].intercalate parts), saw)

def binds (segment : JsString) : Bool := (safeDecodeURIComponent segment false).1.isSome

/-! ## What trimming does -/

def Trimmed (path : JsString) : Prop :=
  path ≠ [] ∧ (path = [slash] ∨ path.getLast? ≠ some slash)

theorem trimmedLength_append (path tail : JsString) :
    ∀ n ≤ path.length, trimmedLength (path ++ tail) n = trimmedLength path n
  | 0, _ => rfl
  | 1, _ => rfl
  | n + 2, h => by
    rw [trimmedLength, trimmedLength, List.getElem?_append_left (by omega),
      trimmedLength_append path tail (n + 1) (by omega)]

theorem trimmedLength_le (path : JsString) : ∀ n, trimmedLength path n ≤ n
  | 0 => Nat.le_refl 0
  | 1 => Nat.le_refl 1
  | n + 2 => by
    rw [trimmedLength]
    split
    · exact Nat.le_trans (trimmedLength_le path (n + 1)) (by omega)
    · exact Nat.le_refl _

theorem trimTrailingSlashes_snoc {path : JsString} (h : path ≠ []) :
    trimTrailingSlashes (path ++ [slash]) = trimTrailingSlashes path := by
  obtain ⟨n, hn⟩ : ∃ n, path.length = n + 1 :=
    Nat.exists_eq_succ_of_ne_zero (by simpa using h)
  have hend : (path ++ [slash])[n + 1]? = some slash := by
    rw [← hn]
    simp
  have hlen : trimmedLength (path ++ [slash]) (n + 2) = trimmedLength path (n + 1) := by
    rw [trimmedLength, if_pos hend, trimmedLength_append path [slash] (n + 1) (by omega)]
  rw [trimTrailingSlashes, trimTrailingSlashes, if_neg (by simp), if_neg (by omega),
    List.length_append, List.length_singleton, hn, hlen,
    List.take_append_of_le_length (by have := trimmedLength_le path (n + 1); omega)]

theorem Trimmed.trim_eq {path : JsString} (h : Trimmed path) : trimTrailingSlashes path = path := by
  obtain ⟨hne, hend⟩ := h
  rw [trimTrailingSlashes, if_neg (by simpa using hne)]
  rcases hn : path.length with _ | _ | n
  · exact absurd (List.length_eq_zero_iff.mp hn) hne
  · exact List.take_of_length_le (by rw [hn]; exact Nat.le_refl 1)
  · have hlast : path[n + 1]? ≠ some slash := by
      rcases hend with hone | hlast
      · rw [hone] at hn
        simp at hn
      · rw [List.getLast?_eq_getElem?, hn] at hlast
        exact hlast
    rw [trimmedLength, if_neg hlast, ← hn, List.take_length]

theorem trimmed_or_snoc {path : JsString} (h : path ≠ []) :
    Trimmed path ∨ ∃ front, front ≠ [] ∧ path = front ++ [slash] := by
  by_cases htrim : path = [slash] ∨ path.getLast? ≠ some slash
  · exact .inl ⟨h, htrim⟩
  · obtain ⟨hone, hlast⟩ := not_or.mp htrim
    obtain ⟨front, rfl⟩ := List.getLast?_eq_some_iff.mp (not_not.mp hlast)
    refine .inr ⟨front, ?_, rfl⟩
    rintro rfl
    exact hone rfl

theorem trimmed_trim (path : JsString) : Trimmed (trimTrailingSlashes path) := by
  induction path using List.reverseRecOn with
  | nil => exact ⟨by decide, .inl rfl⟩
  | append_singleton front u ih =>
    rcases trimmed_or_snoc (show front ++ [u] ≠ [] by simp) with htrim | ⟨front', hne, heq⟩
    · rw [htrim.trim_eq]
      exact htrim
    · obtain ⟨rfl, hu⟩ := List.append_inj' heq rfl
      rw [hu, trimTrailingSlashes_snoc hne]
      exact ih

theorem trim_trim (path : JsString) :
    trimTrailingSlashes (trimTrailingSlashes path) = trimTrailingSlashes path :=
  (trimmed_trim path).trim_eq

theorem trim_prefix {path : JsString} (h : path ≠ []) :
    trimTrailingSlashes path = path ∨ trimTrailingSlashes path ++ [slash] <+: path := by
  induction path using List.reverseRecOn with
  | nil => exact absurd rfl h
  | append_singleton front u ih =>
    rcases trimmed_or_snoc h with htrim | ⟨front', hne, heq⟩
    · exact .inl htrim.trim_eq
    · obtain ⟨rfl, hu⟩ := List.append_inj' heq rfl
      rw [hu, trimTrailingSlashes_snoc hne]
      rcases ih hne with hfix | hpre
      · rw [hfix]
        exact .inr (List.prefix_refl _)
      · exact .inr (hpre.trans (List.prefix_append _ _))

theorem head?_trim {path : JsString} (h : path ≠ []) :
    (trimTrailingSlashes path).head? = path.head? := by
  rcases trim_prefix h with hfix | ⟨tail, htail⟩
  · rw [hfix]
  · obtain ⟨u, rest, htrim⟩ := List.exists_cons_of_ne_nil (trimmed_trim path).1
    have hhead : path.head? = some u := by
      rw [← htail, htrim]
      rfl
    rw [hhead, htrim]
    rfl

theorem isTraversal_trim {path : JsString} (hne : path ≠ []) (h : isTraversal path = false) :
    isTraversal (trimTrailingSlashes path) = false := by
  rcases trim_prefix hne with hfix | hpre
  · rw [hfix, h]
  · simp only [isTraversal, Bool.or_eq_false_iff, decide_eq_false_iff_not] at h ⊢
    obtain ⟨⟨hup, hlast⟩, hempty⟩ := h
    have hinfix : trimTrailingSlashes path <:+: path :=
      ((List.prefix_append _ _).trans hpre).isInfix
    refine ⟨⟨?_, ?_⟩, ?_⟩
    · intro hin
      exact hup (hin.trans hinfix)
    · -- a trailing `/..` before a trimmed slash is a `/../`
      rintro ⟨front, hfront⟩
      apply hup
      refine List.IsInfix.trans ?_ hpre.isInfix
      exact ⟨front, [], by rw [← hfront]; simp [show js "/../" = js "/.." ++ [slash] from by decide]⟩
    · intro hin
      exact hempty (hin.trans hinfix)

/-! ## What splitting does -/

/-- The segments of a path are those of `/`, none, or the pieces of a text that is not empty and
does not end in a slash. -/
theorem splitPath_cases (path : JsString) :
    splitPath path = [] ∧ trimTrailingSlashes path = [slash] ∨
      ∃ text : JsString, text ≠ [] ∧ text.getLast? ≠ some slash ∧
        splitPath path = text.splitOn slash ∧
        (path.head? = some slash → trimTrailingSlashes path = slash :: text) := by
  obtain ⟨hne, hend⟩ := trimmed_trim path
  by_cases hroot : trimTrailingSlashes path = [slash]
  · exact .inl ⟨by rw [splitPath, if_pos hroot], hroot⟩
  · right
    have hlast := hend.resolve_left hroot
    cases htrim : trimTrailingSlashes path with
    | nil => exact absurd htrim hne
    | cons u text =>
      rw [htrim] at hroot hlast
      by_cases hu : u = slash
      · subst hu
        have htext : text ≠ [] := by
          rintro rfl
          exact hroot rfl
        refine ⟨text, htext, ?_, ?_, fun _ => rfl⟩
        · rwa [List.getLast?_cons_of_ne_nil htext] at hlast
        · rw [splitPath, htrim, if_neg hroot]
          rfl
      · refine ⟨u :: text, by simp, hlast, ?_, ?_⟩
        · rw [splitPath, htrim, if_neg hroot, if_neg (by simpa using hu)]
        · intro hhead
          have hpath : path ≠ [] := by
            rintro rfl
            simp at hhead
          rw [← head?_trim hpath, htrim] at hhead
          exact absurd (Option.some.inj hhead) hu

theorem staticKey_splitOn (text : JsString) : staticKey (text.splitOn slash) = slash :: text := by
  rw [staticKey, List.intercalate_splitOn]

theorem staticKey_splitPath {path : JsString} (h : path.head? = some slash) :
    staticKey (splitPath path) = trimTrailingSlashes path := by
  rcases splitPath_cases path with ⟨hsplit, htrim⟩ | ⟨text, -, -, hsplit, htrim⟩
  · rw [hsplit, htrim]
    rfl
  · rw [hsplit, htrim h, staticKey_splitOn]

theorem trimmed_staticKey (path : JsString) : Trimmed (staticKey (splitPath path)) := by
  rcases splitPath_cases path with ⟨hsplit, -⟩ | ⟨text, hne, hlast, hsplit, -⟩
  · rw [hsplit]
    exact ⟨by decide, .inl rfl⟩
  · rw [hsplit, staticKey_splitOn]
    exact ⟨by simp, .inr (by rwa [List.getLast?_cons_of_ne_nil hne])⟩

theorem staticKey_injective {path path' : JsString}
    (h : staticKey (splitPath path) = staticKey (splitPath path')) :
    splitPath path = splitPath path' := by
  rcases splitPath_cases path with ⟨hsplit, -⟩ | ⟨text, hne, -, hsplit, -⟩ <;>
    rcases splitPath_cases path' with ⟨hsplit', -⟩ | ⟨text', hne', -, hsplit', -⟩
  · rw [hsplit, hsplit']
  · rw [hsplit, hsplit', staticKey_splitOn] at h
    exact absurd (List.cons.inj h).2.symm hne'
  · rw [hsplit, hsplit', staticKey_splitOn] at h
    exact absurd (List.cons.inj h).2 hne
  · rw [hsplit, hsplit', staticKey_splitOn, staticKey_splitOn] at h
    rw [hsplit, hsplit', (List.cons.inj h).2]

theorem splitPath_trim (path : JsString) : splitPath (trimTrailingSlashes path) = splitPath path := by
  rw [splitPath, splitPath, trim_trim]

/-! ## The flag does not decide -/

theorem hasUnsafeDecodedContentFrom_fst (component decoded : JsString) (saw saw' : Bool) :
    (hasUnsafeDecodedContentFrom component decoded saw).1 =
      (hasUnsafeDecodedContentFrom component decoded saw').1 := by
  induction decoded generalizing component saw saw' with
  | nil => rfl
  | cons c decoded ih =>
    rw [hasUnsafeDecodedContentFrom, hasUnsafeDecodedContentFrom]
    split
    · rfl
    split
    · rfl
    · exact ih _ _ _

theorem safeDecodeURIComponent_fst (segment : JsString) (saw saw' : Bool) :
    (safeDecodeURIComponent segment saw).1 = (safeDecodeURIComponent segment saw').1 := by
  have hcontent := fun decoded => hasUnsafeDecodedContentFrom_fst [] decoded saw saw'
  unfold safeDecodeURIComponent hasUnsafeDecodedContent
  split
  · rfl
  split
  · rfl
  next decoded _ =>
    split
    · rfl
    · specialize hcontent decoded
      grind

theorem isSome_safeDecodeURIComponent (segment : JsString) (saw : Bool) :
    (safeDecodeURIComponent segment saw).1.isSome = binds segment := by
  rw [binds, safeDecodeURIComponent_fst segment saw false]

theorem isSome_decodeSegments (segments : List JsString) (saw : Bool) :
    (decodeSegments segments saw).1.isSome = segments.all binds := by
  have hparts : (decodeParts segments saw).1.isSome = segments.all binds := by
    induction segments generalizing saw with
    | nil => rfl
    | cons segment segments ih =>
      rw [decodeParts, List.all_cons, ← isSome_safeDecodeURIComponent segment saw]
      grind
  rw [← hparts, decodeSegments]
  grind

end Daloy.Routing
