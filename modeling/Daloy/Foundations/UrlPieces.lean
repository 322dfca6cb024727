import Daloy.Foundations.PercentDecoding
import Mathlib.Data.List.Forall2

/-! # What the path of a URL keeps

Two paths are the same where they have the same pieces between slashes, each equal after
percent-decoding. Nothing here mentions a program.

* `stripped`: what is left of a path when its text is cleaned.
* `weight_resolve`: no path has more to decode after its dot segments are gone.
* `length_decoded_stripped`: nor after it was cleaned, and less if that changed it.
-/

namespace Daloy.UrlStandard
set_option autoImplicit false

open Daloy.Unicode

/-! ## Pieces -/

def SamePath (path path' : JsString) : Prop :=
  List.Forall₂ (fun piece piece' => decoded piece = decoded piece') (path.splitOn solidus)
    (path'.splitOn solidus)

theorem splitOn_cons_solidus (s : JsString) :
    List.splitOn solidus (solidus :: s) = [] :: List.splitOn solidus s := by
  rw [List.splitOn, List.splitOnP_cons_eq_if_modifyHead, if_pos (by simp), List.splitOn]

/-- A text that starts with a slash and has none the other way. -/
structure IsPath (path : JsString) : Prop where
  head : path.head? = some solidus
  plain : ∀ u ∈ path, u ≠ reverseSolidus ∧ endsPath u = false

theorem pathname_splitOnP {s : JsString} (h : ∀ u ∈ s, u ≠ reverseSolidus) :
    pathname (s.splitOnP isSlash) = solidus :: s := by
  induction s with
  | nil => rfl
  | cons u s ih =>
    have ih := ih fun v hv => h v (List.mem_cons_of_mem _ hv)
    rw [List.splitOnP_cons_eq_if_modifyHead]
    by_cases hu : isSlash u = true
    · have hsolidus : u = solidus := by
        simp only [isSlash, Bool.or_eq_true, beq_iff_eq] at hu
        exact hu.resolve_right (h u List.mem_cons_self)
      rw [if_pos hu, pathname, List.flatMap_cons, ← pathname, ih, hsolidus]
      rfl
    · obtain ⟨first, rest, hsplit⟩ := List.exists_cons_of_ne_nil (List.splitOnP_ne_nil isSlash s)
      rw [if_neg hu]
      rw [hsplit] at ih ⊢
      rw [pathname, List.flatMap_cons, List.cons_append, ← pathname] at ih
      rw [List.modifyHead_cons, pathname, List.flatMap_cons, ← pathname, List.cons_append,
        List.cons_append, (List.cons.inj ih).2]

theorem IsPath.pieces_eq {path : JsString} (h : IsPath path) :
    pieces path = path.tail.splitOnP isSlash := by
  rw [pieces, h.head, Option.any_some, if_pos isSlash_solidus]

theorem IsPath.cons_tail {path : JsString} (h : IsPath path) : solidus :: path.tail = path := by
  cases path with
  | nil => exact absurd h.head (by simp)
  | cons u path =>
    have hu : u = solidus := Option.some.inj h.head
    rw [List.tail_cons, hu]

theorem IsPath.pathname_pieces {path : JsString} (h : IsPath path) :
    pathname (pieces path) = path := by
  rw [h.pieces_eq, pathname_splitOnP fun u hu => (h.plain u (List.mem_of_mem_tail hu)).1,
    h.cons_tail]

theorem IsPath.pathPart_eq {path : JsString} (h : IsPath path) : pathPart path = path := by
  rw [pathPart, List.takeWhile_eq_self_iff.mpr fun u hu => by simp [(h.plain u hu).2]]

theorem splitOn_pathname {segments : List JsString} (hne : segments ≠ [])
    (h : ∀ s ∈ segments, ∀ u ∈ s, isSlash u = false) :
    (pathname segments).splitOn solidus = [] :: segments := by
  induction segments with
  | nil => exact absurd rfl hne
  | cons s rest ih =>
    have hs : ∀ u ∈ s, (u == solidus) = false := by
      intro u hu
      have hslash := h s List.mem_cons_self u hu
      simp only [isSlash, Bool.or_eq_false_iff] at hslash
      exact hslash.1
    rw [pathname, List.flatMap_cons, List.cons_append, splitOn_cons_solidus, ← pathname]
    cases rest with
    | nil =>
      rw [pathname, List.flatMap_nil, List.append_nil, List.splitOn, List.splitOnP_eq_singleton hs]
    | cons next rest =>
      have ih := ih (by simp) fun t ht => h t (List.mem_cons_of_mem _ ht)
      rw [pathname, List.flatMap_cons, List.cons_append, splitOn_cons_solidus, ← pathname] at ih
      rw [pathname, List.flatMap_cons, List.cons_append, List.splitOn,
        List.splitOnP_append_cons_of_forall_mem hs _ (by simp), ← pathname, ← List.splitOn,
        (List.cons.inj ih).2]

theorem IsPath.splitOn_eq {path : JsString} (h : IsPath path) :
    path.splitOn solidus = [] :: pieces path := by
  have hne : pieces path ≠ [] := by
    rw [h.pieces_eq]
    exact List.splitOnP_ne_nil _ _
  have hslash : ∀ s ∈ pieces path, ∀ u ∈ s, isSlash u = false := by
    rw [h.pieces_eq]
    exact splitOnP_not _
  conv_lhs => rw [← h.pathname_pieces]
  exact splitOn_pathname hne hslash

/-! ## What is decoded of the pieces -/

theorem breaksText_solidus : BreaksText solidus := ⟨by decide, by decide⟩

theorem decoded_nil : decoded [] = [] := percentDecode_nil

theorem decoded_pathname_cons (s : JsString) (rest : List JsString) :
    decoded (pathname (s :: rest)) = 0x2F :: (decoded s ++ decoded (pathname rest)) := by
  have hfront : pathname (s :: rest) = [] ++ solidus :: (s ++ pathname rest) := rfl
  rw [hfront, decoded_break breaksText_solidus, decoded_nil, List.nil_append]
  congr 1
  cases rest with
  | nil => rw [pathname, List.flatMap_nil, List.append_nil, decoded_nil, List.append_nil]
  | cons next rest =>
    have hnext : pathname (next :: rest) = [] ++ solidus :: (next ++ pathname rest) := rfl
    rw [hnext, List.nil_append, decoded_break breaksText_solidus, ← List.nil_append (solidus :: _),
      decoded_break breaksText_solidus, decoded_nil, List.nil_append]

theorem decoded_pathname (segments : List JsString) :
    decoded (pathname segments) = segments.flatMap fun s => 0x2F :: decoded s := by
  induction segments with
  | nil => exact decoded_nil
  | cons s rest ih => rw [decoded_pathname_cons, ih, List.flatMap_cons, List.cons_append]

def weight (segments : List JsString) : ℕ := (decoded (pathname segments)).length

theorem weight_append (a b : List JsString) : weight (a ++ b) = weight a + weight b := by
  simp only [weight, decoded_pathname, List.flatMap_append, List.length_append]

theorem weight_singleton (s : JsString) : weight [s] = (decoded s).length + 1 := by
  rw [weight, decoded_pathname, List.flatMap_singleton, List.length_cons]

theorem weight_dropLast (segments : List JsString) : weight segments.dropLast ≤ weight segments := by
  obtain rfl | ⟨front, last, rfl⟩ := List.eq_nil_or_concat' segments
  · exact Nat.le_refl _
  · rw [List.dropLast_concat, weight_append]
    exact Nat.le_add_right _ _

theorem weight_nil_piece (s : JsString) : weight [[]] ≤ weight [s] := by
  rw [weight_singleton, weight_singleton, decoded_nil]
  simp

theorem weight_encode (s : JsString) : weight [encodeWith keptInPath s] = weight [s] := by
  rw [weight_singleton, weight_singleton, decoded_encodeWith keepsEscapes_path]

theorem weight_resolve (path pieces : List JsString) :
    weight (resolve path pieces) ≤ weight (path ++ pieces) := by
  fun_induction resolve path pieces with
  | case1 path => rw [List.append_nil]
  | case2 path last =>
    rw [weight_append, weight_append]
    exact Nat.add_le_add (weight_dropLast path) (weight_nil_piece last)
  | case3 path last =>
    rw [weight_append, weight_append]
    exact Nat.add_le_add_left (weight_nil_piece last) _
  | case4 path last => rw [weight_append, weight_append, weight_encode]
  | case5 path piece next pieces ih =>
    refine ih.trans ?_
    have hfront : weight (if isDoubleDot (encodeWith keptInPath piece) then path.dropLast
        else if isSingleDot (encodeWith keptInPath piece) then path
        else path ++ [encodeWith keptInPath piece]) ≤ weight (path ++ [piece]) := by
      rw [weight_append]
      split
      · exact (weight_dropLast path).trans (Nat.le_add_right _ _)
      · split
        · exact Nat.le_add_right _ _
        · rw [weight_append, weight_encode]
    rw [List.append_cons path piece, weight_append, weight_append (path ++ [piece])]
    exact Nat.add_le_add_right hfront _

theorem decoded_of_same {segments segments' : List JsString}
    (h : List.Forall₂ (fun s s' => decoded s = decoded s') segments segments') :
    decoded (pathname segments) = decoded (pathname segments') := by
  rw [decoded_pathname, decoded_pathname]
  induction h with
  | nil => rfl
  | cons heq _ ih => rw [List.flatMap_cons, List.flatMap_cons, heq, ih]

/-! ## Paths without dot segments -/

theorem mem_scalars_of_mem {s : JsString} (h : ∀ c ∈ scalars s, c.toNat < 0x80) :
    ∀ u ∈ s, ∃ c ∈ scalars s, u = UInt16.ofNat c.toNat := by
  have hreplacement : ¬ replacement.toNat < 0x80 := by decide
  have hunit : ∀ u : UInt16, (isHighSurrogate u || isLowSurrogate u) = false →
      (Char.ofNat u.toNat).toNat < 0x80 → u = UInt16.ofNat (Char.ofNat u.toNat).toNat := by
    intro u hu hascii
    rw [Bool.or_eq_false_iff] at hu
    exact (unit_of_scalar hu).symm
  fun_induction scalars s with
  | case1 => simp
  | case2 u =>
    by_cases hu : (isHighSurrogate u || isLowSurrogate u) = true
    · rw [if_pos hu] at h
      exact absurd (h _ List.mem_cons_self) hreplacement
    · rw [if_neg hu] at h ⊢
      intro v hv
      obtain rfl := List.mem_singleton.mp hv
      exact ⟨_, List.mem_cons_self, hunit v (by simpa using hu) (h _ List.mem_cons_self)⟩
  | case3 u v rest hu hv ih =>
    have hpair := combine_toNat_ge u v hu hv
    have hascii := h _ List.mem_cons_self
    omega
  | case4 u v rest hu hv ih => exact absurd (h _ List.mem_cons_self) hreplacement
  | case5 u v rest hu ih =>
    rw [List.forall_mem_cons] at h
    split at h
    · exact absurd h.1 hreplacement
    · rename_i hlow
      rw [if_neg hlow]
      intro w hw
      obtain rfl | hw := List.mem_cons.mp hw
      · exact ⟨_, List.mem_cons_self, hunit w (by simpa [hu] using hlow) h.1⟩
      · obtain ⟨c, hc, hwc⟩ := ih h.2 w hw
        exact ⟨c, List.mem_cons_of_mem _ hc, hwc⟩

theorem encode_dotSpelling {s : JsString} (h : encodeWith keptInPath s ∈ dotSpellings) :
    s ∈ dotSpellings := by
  have hescapes : ∀ t ∈ dotSpellings, ∀ k : Fin 256, escape (UInt8.ofNat k.val) <:+: t →
      k.val = 0x2E := by
    rw [dotSpellings_units]
    decide +kernel
  have hkept : ∀ c ∈ scalars s, c.toNat < 0x80 ∧ keptInPath (UInt16.ofNat c.toNat) = true := by
    intro c hc
    by_contra hescaped
    have hchar : encodeChar keptInPath c = (String.utf8EncodeChar c).flatMap escape :=
      if_neg hescaped
    have hbytes : ∀ b ∈ String.utf8EncodeChar c, b.toNat = 0x2E := by
      intro b hb
      have hinfix : escape b <:+: encodeWith keptInPath s := by
        obtain ⟨front, back, hscalars⟩ := List.append_of_mem hc
        obtain ⟨front', back', hutf8⟩ := List.append_of_mem hb
        refine ⟨front.flatMap (encodeChar keptInPath) ++ front'.flatMap escape,
          back'.flatMap escape ++ back.flatMap (encodeChar keptInPath), ?_⟩
        rw [encodeWith, hscalars, List.flatMap_append, List.flatMap_cons, hchar, hutf8,
          List.flatMap_append, List.flatMap_cons]
        simp only [List.append_assoc]
      have hbyte := hescapes _ h ⟨b.toNat, b.toNat_lt⟩
      rw [UInt8.ofNat_toNat] at hbyte
      exact hbyte hinfix
    by_cases hascii : c.toNat < 0x80
    · have hdot := hbytes (UInt8.ofNat c.toNat) (by rw [utf8EncodeChar_ascii hascii]; simp)
      rw [UInt8.toNat_ofNat_of_lt' (by show _ < 256; omega)] at hdot
      exact hescaped ⟨hascii, by rw [hdot]; decide⟩
    · have hne : String.utf8EncodeChar c ≠ [] := by
        rw [String.utf8EncodeChar]
        split
        · simp
        · split
          · simp
          · split
            · simp
            · simp
      obtain ⟨b, rest, hutf8⟩ := List.exists_cons_of_ne_nil hne
      have hmem : b ∈ String.utf8EncodeChar c := by
        rw [hutf8]
        exact List.mem_cons_self
      have hlarge := utf8EncodeChar_large hascii b hmem
      have hsmall := hbytes b hmem
      omega
  have hself : encodeWith keptInPath s = s := by
    refine encodeWith_eq_self fun u hu => ?_
    obtain ⟨c, hc, rfl⟩ := mem_scalars_of_mem (fun c hc => (hkept c hc).1) u hu
    have hc := hkept c hc
    rw [UInt16.toNat_ofNat_of_lt' (by show _ < 65536; omega)]
    exact hc
  rwa [hself] at h

theorem not_dot_encode {s : JsString} (h : s ∉ dotSpellings) :
    isSingleDot (encodeWith keptInPath s) = false ∧
      isDoubleDot (encodeWith keptInPath s) = false := by
  rw [← Bool.not_eq_true, ← Bool.not_eq_true]
  exact ⟨fun hsingle => h (encode_dotSpelling (mem_dotSpellings (.inl hsingle))),
    fun hdouble => h (encode_dotSpelling (mem_dotSpellings (.inr hdouble)))⟩

theorem resolve_plain {path pieces : List JsString} (h : ∀ s ∈ pieces, s ∉ dotSpellings) :
    resolve path pieces = path ++ pieces.map (encodeWith keptInPath) := by
  fun_induction resolve path pieces with
  | case1 path => rw [List.map_nil, List.append_nil]
  | case2 path last hdouble =>
    rw [(not_dot_encode (h last List.mem_cons_self)).2] at hdouble
    cases hdouble
  | case3 path last hdouble hsingle =>
    rw [(not_dot_encode (h last List.mem_cons_self)).1] at hsingle
    cases hsingle
  | case4 path last hdouble hsingle => rfl
  | case5 path piece next pieces ih =>
    obtain ⟨hsingle, hdouble⟩ := not_dot_encode (h piece List.mem_cons_self)
    rw [hsingle, hdouble, if_neg (by simp), if_neg (by simp)] at ih
    rw [hsingle, hdouble, if_neg (by simp), if_neg (by simp),
      ih fun s hs => h s (List.mem_cons_of_mem _ hs), List.append_assoc]
    rfl

/-! ## Cleaning -/

def searchText (query : JsString) : JsString :=
  if query = [] then [] else questionMark :: query

def stripped (path query : JsString) : JsString :=
  (if query = [] then path.rdropWhile isControlOrSpace else path).filter fun u => !isTabOrNewline u

/-- A path that cleaning leaves as it is. -/
structure Unstripped (path query : JsString) : Prop where
  inside : ∀ u ∈ path, isTabOrNewline u = false
  ending : query = [] → ∀ u, path.getLast? = some u → isControlOrSpace u = false

theorem rdropWhile_append_cons {p : UInt16 → Bool} {u : UInt16} (hu : p u = false)
    (a b : JsString) : (a ++ u :: b).rdropWhile p = a ++ u :: b.rdropWhile p := by
  rw [List.rdropWhile, List.rdropWhile, List.reverse_append, List.reverse_cons, List.append_assoc,
    List.dropWhile_append]
  split
  · rename_i hempty
    rw [List.isEmpty_iff.mp hempty, List.singleton_append,
      List.dropWhile_cons_of_neg (by simp [hu])]
    simp
  · simp

theorem cleanEnd_append {u : UInt16} (hu : isControlOrSpace u = false) (a b : JsString) :
    cleanEnd (a ++ u :: b) = a.filter (fun u => !isTabOrNewline u) ++ u :: cleanEnd b := by
  rw [cleanEnd, rdropWhile_append_cons hu, List.filter_append,
    List.filter_cons_of_pos (by simp [not_isTabOrNewline hu]), cleanEnd]

theorem stripped_isPath {path : JsString} (h : IsPath path) (query : JsString) :
    IsPath (stripped path query) := by
  have hsolidus : isControlOrSpace solidus = false := rfl
  have hcons : ∃ rest, (if query = [] then path.rdropWhile isControlOrSpace else path) =
      solidus :: rest ∧ ∀ u ∈ solidus :: rest, u ∈ path := by
    rw [← h.cons_tail]
    split
    · have hdrop := rdropWhile_append_cons (p := isControlOrSpace) hsolidus [] path.tail
      rw [List.nil_append, List.nil_append] at hdrop
      refine ⟨_, hdrop, fun u hu => ?_⟩
      rw [← hdrop] at hu
      exact (List.rdropWhile_prefix _ _).subset hu
    · exact ⟨_, rfl, fun _ hu => hu⟩
  obtain ⟨rest, hrest, hsub⟩ := hcons
  rw [stripped, hrest, List.filter_cons_of_pos (by decide)]
  refine ⟨rfl, fun u hu => h.plain u (hsub u ?_)⟩
  obtain rfl | hu := List.mem_cons.mp hu
  · exact List.mem_cons_self
  · exact List.mem_cons_of_mem _ (List.mem_of_mem_filter hu)

theorem pathPart_clean {path : JsString} (h : IsPath path) (query : JsString) :
    pathPart (clean (path ++ searchText query)) = stripped path query := by
  have hclean : clean (path ++ searchText query) = cleanEnd (path ++ searchText query) := by
    rw [← h.cons_tail, List.cons_append, clean_eq_cleanEnd rfl, cleanEnd_cons rfl]
  rw [hclean, searchText]
  by_cases hquery : query = []
  · have hstripped : stripped path query = cleanEnd path := by
      rw [stripped, if_pos hquery, cleanEnd]
    rw [if_pos hquery, List.append_nil, ← hstripped, (stripped_isPath h query).pathPart_eq]
  · have hstripped : stripped path query = path.filter fun u => !isTabOrNewline u := by
      rw [stripped, if_neg hquery]
    rw [if_neg hquery, cleanEnd_append (by decide), ← hstripped]
    exact pathPart_append (fun u hu => ((stripped_isPath h query).plain u hu).2)
      fun u hu => by
        obtain rfl : questionMark = u := Option.some.inj hu
        rfl

theorem breaksText_control {u : UInt16} (h : isControlOrSpace u = true) : BreaksText u := by
  have hle : u.toNat ≤ 0x20 := by simpa [isControlOrSpace] using h
  have hall : ∀ k : Fin 0x21, Breaks (UInt8.ofNat k.val) := by decide
  exact ⟨by omega, hall ⟨u.toNat, by omega⟩⟩

theorem isControlOrSpace_tab {u : UInt16} (h : isTabOrNewline u = true) :
    isControlOrSpace u = true := by
  rw [← Bool.not_eq_false]
  intro hvisible
  rw [not_isTabOrNewline hvisible] at h
  cases h

theorem length_decoded_rdropWhile (s : JsString) :
    (decoded (s.rdropWhile isControlOrSpace)).length ≤ (decoded s).length ∧
      ((decoded s).length ≤ (decoded (s.rdropWhile isControlOrSpace)).length →
        s.rdropWhile isControlOrSpace = s) := by
  induction s using List.reverseRecOn with
  | nil => exact ⟨Nat.le_refl _, fun _ => rfl⟩
  | append_singleton s u ih =>
    by_cases hu : isControlOrSpace u = true
    · have hlt := length_decoded_remove (breaksText_control hu) s []
      rw [List.append_nil] at hlt
      rw [List.rdropWhile_concat_pos _ _ _ hu]
      exact ⟨by omega, fun h => by omega⟩
    · rw [List.rdropWhile_concat_neg _ _ _ hu]
      exact ⟨Nat.le_refl _, fun _ => rfl⟩

theorem length_decoded_stripped (path query : JsString) :
    (decoded path).length ≤ (decoded (stripped path query)).length → stripped path query = path := by
  intro h
  have hfilter := fun s => length_decoded_filter (p := fun u => !isTabOrNewline u)
    (fun u hu => breaksText_control (isControlOrSpace_tab (by simpa using hu))) [] s
  simp only [List.nil_append] at hfilter
  rw [stripped] at h ⊢
  split at h
  · rename_i hquery
    obtain ⟨hle, heq⟩ := length_decoded_rdropWhile path
    obtain ⟨hle', heq'⟩ := hfilter (path.rdropWhile isControlOrSpace)
    rw [if_pos hquery, heq' (by omega), heq (by omega)]
  · rename_i hquery
    rw [if_neg hquery]
    exact (hfilter path).2 h

theorem stripped_iff (path query : JsString) :
    stripped path query = path ↔ Unstripped path query := by
  have hself : ∀ s : JsString, (s.filter fun u => !isTabOrNewline u) = s ↔
      ∀ u ∈ s, isTabOrNewline u = false := by
    intro s
    rw [List.filter_eq_self]
    simp
  have hlast : path.rdropWhile isControlOrSpace = path ↔
      ∀ u, path.getLast? = some u → isControlOrSpace u = false := by
    obtain rfl | ⟨front, last, rfl⟩ := List.eq_nil_or_concat' path
    · simp
    · rw [List.rdropWhile_eq_self_iff]
      simp
  rw [stripped]
  constructor
  · intro h
    split at h
    · have hdrop : path.rdropWhile isControlOrSpace = path := by
        refine (List.rdropWhile_prefix _ _).eq_of_length_le ?_
        have hle := List.length_filter_le (fun u => !isTabOrNewline u)
          (path.rdropWhile isControlOrSpace)
        rwa [h] at hle
      rw [hdrop] at h
      exact ⟨(hself path).mp h, fun _ => hlast.mp hdrop⟩
    · rename_i hquery
      exact ⟨(hself path).mp h, fun hnil => absurd hnil hquery⟩
  · intro h
    split
    · rename_i hquery
      rw [hlast.mpr (h.ending hquery)]
      exact (hself path).mpr h.inside
    · exact (hself path).mpr h.inside

/-! ## The paths that are kept -/

theorem segmentsOf_clean {path : JsString} (h : IsPath path) (query : JsString) :
    segmentsOf (clean (path ++ searchText query)) = resolve [] (pieces (stripped path query)) := by
  rw [segmentsOf, pathPart_clean h]

/-- **The paths that a URL keeps** are those that cleaning leaves as they are, among those without a
dot segment. -/
theorem samePath_iff {path : JsString} (h : IsPath path)
    (hdots : ∀ s ∈ pieces path, s ∉ dotSpellings) (query : JsString) :
    SamePath path (pathname (segmentsOf (clean (path ++ searchText query)))) ↔
      Unstripped path query := by
  have hsettled := segmentsOf_settled (clean (path ++ searchText query))
  rw [SamePath, h.splitOn_eq,
    splitOn_pathname (segmentsOf_ne_nil _) fun s hs u hu => ((hsettled s hs).kept u hu).2,
    List.forall₂_cons, ← stripped_iff]
  constructor
  · rintro ⟨-, hsame⟩
    have hdecoded := decoded_of_same hsame
    rw [h.pathname_pieces, segmentsOf_clean h] at hdecoded
    have hweight := weight_resolve [] (pieces (stripped path query))
    rw [weight, weight, List.nil_append, (stripped_isPath h query).pathname_pieces, ← hdecoded]
      at hweight
    exact length_decoded_stripped path query hweight
  · intro hstripped
    rw [segmentsOf_clean h, hstripped, resolve_plain hdots, List.nil_append,
      List.forall₂_map_right_iff]
    refine ⟨rfl, List.forall₂_same.mpr fun s _ => ?_⟩
    rw [decoded_encodeWith keepsEscapes_path]

end Daloy.UrlStandard
