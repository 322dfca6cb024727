import Daloy.Adapters.RequestTarget

/-! # The router and the middleware see one path

* `OnePath`: what the router slices off a URL is the pathname that parsing gives it, and for a target
  in origin form this is the path of the target as it came in.
-/

namespace Daloy.Adapters
set_option autoImplicit false

open Daloy.Unicode Daloy.UrlStandard

/-! ## Texts as URLs write them -/

/-- A path as it is written, and what may follow it. -/
structure Written (segments : List JsString) (s : JsString) : Prop where
  ne_nil : segments ≠ []
  settled : ∀ segment ∈ segments, Settled segment
  text : ∃ q, s = pathname segments ++ q ∧ Ended q ∧ Visible q

theorem keptInPath_visible {u : UInt16} (h : keptInPath u = true) : isControlOrSpace u = false := by
  simp only [keptInPath, Bool.and_eq_true, decide_eq_true_eq] at h
  simp only [isControlOrSpace, decide_eq_false_iff_not]
  omega

namespace Written

variable {segments : List JsString} {s : JsString}

theorem visible (h : Written segments s) : Visible s := by
  obtain ⟨q, rfl, -, hq⟩ := h.text
  intro u hu
  obtain hu | hu := List.mem_append.mp hu
  · obtain rfl | ⟨segment, hsegment, hmem⟩ := mem_pathname hu
    · rfl
    · exact keptInPath_visible ((h.settled segment hsegment).kept u hmem).1
  · exact hq u hu

theorem head (h : Written segments s) : s.head? = some solidus := by
  obtain ⟨q, rfl, -⟩ := h.text
  obtain ⟨first, rest, rfl⟩ := List.exists_cons_of_ne_nil h.ne_nil
  rfl

theorem clean_eq (h : Written segments s) : clean s = s := by
  have hne : s ≠ [] := by
    intro hnil
    have hhead := h.head
    rw [hnil] at hhead
    simp at hhead
  have hclean := clean_append h.visible hne []
  rwa [List.append_nil, cleanEnd_visible (by simp [Visible]), List.append_nil] at hclean

theorem segmentsOf_eq (h : Written segments s) : segmentsOf s = segments := by
  obtain ⟨q, rfl, hq, -⟩ := h.text
  exact segmentsOf_pathname h.ne_nil h.settled hq

theorem unique {segments' : List JsString} (h : Written segments s) (h' : Written segments' s) :
    segments = segments' := by
  rw [← h.segmentsOf_eq, h'.segmentsOf_eq]

theorem pathPart_eq (h : Written segments s) : pathPart s = pathname segments := by
  obtain ⟨q, rfl, hq, -⟩ := h.text
  exact pathPart_append (pathname_not_endsPath h.settled) hq

end Written

theorem written_slash : Written [[]] (js "/") :=
  ⟨by simp, by simp [settled_nil], [], by decide, by simp [Ended], by simp [Visible]⟩

theorem queryOf_visible {s query : JsString} (h : queryOf s = some query) : Visible query := by
  rw [queryOf] at h
  split at h
  · simp at h
  · obtain rfl := Option.some.inj h
    intro u hu
    obtain ⟨-, hkept⟩ | hescape := mem_encodeWith hu
    · simp only [keptInQuery, Bool.and_eq_true, decide_eq_true_eq] at hkept
      simp only [isControlOrSpace, decide_eq_false_iff_not]
      omega
    · exact keptInPath_visible (escapeUnit_kept hescape).1

theorem written_url {url : Url} {s t : JsString} (hsegments : url.segments = segmentsOf s)
    (hquery : url.query = queryOf t) : Written url.segments (url.pathname ++ url.search) := by
  refine ⟨by rw [hsegments]; exact segmentsOf_ne_nil s, by rw [hsegments]; exact segmentsOf_settled s,
    url.search, rfl, ?_, ?_⟩
  · rw [Url.search]
    split
    · simp [Ended]
    · simp [Ended]
    · intro u hu
      obtain rfl : questionMark = u := by simpa using hu
      rfl
  · rw [Url.search]
    split
    · simp [Visible]
    · simp [Visible]
    · rename_i query hne heq
      intro u hu
      obtain rfl | hu := List.mem_cons.mp hu
      · rfl
      · exact queryOf_visible (hquery.symm.trans heq) u hu

section Parsing

variable [UrlParser]

open UrlParser

theorem parseBehind_eq_some {protocol s : JsString} {url : Url}
    (h : parseBehind protocol s = some url) :
    ∃ rest, url.segments = segmentsOf rest ∧ url.query = queryOf rest := by
  obtain ⟨authority, -, rfl⟩ := Option.map_eq_some_iff.mp h
  exact ⟨_, rfl, rfl⟩

theorem reference_eq_some {base url : Url} {s : JsString} (h : reference base s = some url) :
    ∃ rest, url.segments = segmentsOf rest ∧ url.query = queryOf rest := by
  rw [reference] at h
  split at h
  · split at h
    · exact parseBehind_eq_some h
    · obtain rfl := Option.some.inj h
      exact ⟨_, rfl, rfl⟩
  · obtain rfl := Option.some.inj h
    exact ⟨_, rfl, rfl⟩

theorem canonicalOriginForm_written (t : JsString) :
    ∃ segments, Written segments (canonicalOriginForm t) := by
  rw [canonicalOriginForm]
  cases hurl : (parse (js "http://h")).bind fun base => reference base t with
  | none => exact ⟨_, written_slash⟩
  | some url =>
    obtain ⟨base, -, href⟩ := Option.bind_eq_some_iff.mp hurl
    obtain ⟨rest, hsegments, hquery⟩ := reference_eq_some href
    exact ⟨_, written_url hsegments hquery⟩

omit [UrlParser] in
theorem splitScheme_of_lower {scheme a : JsString} (hscheme : scheme = js "http://" ∨ scheme = js "https://")
    (ha : lowerAscii a = scheme) (rest : JsString) :
    ∃ protocol behind, splitScheme (clean (a ++ rest)) = some (protocol, behind) := by
  have hvisible : Visible a := by
    intro u hu
    have hmem : (if 0x41 ≤ u.toNat ∧ u.toNat ≤ 0x5A then u + 0x20 else u) ∈ scheme := by
      rw [← ha]
      exact List.mem_map_of_mem hu
    have hall : ∀ scheme, scheme = js "http://" ∨ scheme = js "https://" →
        ∀ v ∈ scheme, isControlOrSpace v = false := by
      rintro scheme (rfl | rfl)
      · decide
      · decide
    have hlower := hall scheme hscheme _ hmem
    split at hlower
    · simp only [isControlOrSpace, decide_eq_false_iff_not]
      omega
    · exact hlower
  have hne : a ≠ [] := by
    rintro rfl
    obtain rfl | rfl := hscheme
    · exact absurd ha (by decide)
    · exact absurd ha (by decide)
  have htake : ∀ n, n ≤ a.length → lowerAscii ((a ++ cleanEnd rest).take n) = scheme.take n := by
    intro n hn
    rw [List.take_append_of_le_length hn, ← ha, lowerAscii, lowerAscii, List.map_take]
  have hlength : a.length = scheme.length := by
    rw [← ha, lowerAscii, List.length_map]
  rw [clean_append hvisible hne, splitScheme]
  obtain rfl | rfl := hscheme
  · rw [htake 5 (by rw [hlength]; decide), if_pos (by decide)]
    exact ⟨_, _, rfl⟩
  · rw [htake 5 (by rw [hlength]; decide), if_neg (by decide),
      htake 6 (by rw [hlength]; decide), if_pos (by decide)]
    exact ⟨_, _, rfl⟩

theorem parse_absoluteForm {raw : JsString} (h : isAbsoluteForm raw = true) {url : Url}
    (hurl : parse raw = some url) :
    ∃ rest, url.segments = segmentsOf rest ∧ url.query = queryOf rest := by
  have hsplit : ∃ protocol behind, splitScheme (clean raw) = some (protocol, behind) := by
    have hfront : ∀ scheme : JsString, scheme.isPrefixOf (lowerAscii (raw.take 8)) = true →
        lowerAscii (raw.take scheme.length) = scheme := by
      intro scheme hpre
      obtain ⟨more, hmore⟩ := List.isPrefixOf_iff_prefix.mp hpre
      have hlength : scheme.length ≤ 8 := by
        have htotal := congrArg List.length hmore
        rw [List.length_append, lowerAscii, List.length_map, List.length_take] at htotal
        omega
      have htake : raw.take scheme.length = (raw.take 8).take scheme.length := by
        rw [List.take_take, Nat.min_eq_left hlength]
      rw [htake, lowerAscii, List.map_take, ← lowerAscii, ← hmore, List.take_left]
    rw [isAbsoluteForm, Bool.or_eq_true] at h
    obtain h | h := h
    · have hsplit := splitScheme_of_lower (.inl rfl) (hfront _ h) (raw.drop (js "http://").length)
      rwa [List.take_append_drop] at hsplit
    · have hsplit := splitScheme_of_lower (.inr rfl) (hfront _ h) (raw.drop (js "https://").length)
      rwa [List.take_append_drop] at hsplit
  obtain ⟨protocol, behind, hsplit⟩ := hsplit
  rw [parse, hsplit] at hurl
  exact parseBehind_eq_some hurl

/-! ## What a target becomes -/

def originForm (raw : JsString) : JsString :=
  if raw.head? = some solidus then raw else solidus :: raw

def IsUntouched (raw : JsString) : Prop :=
  (raw.head? = some solidus ∨ isAbsoluteForm raw = false) ∧
    pathNeedsCanonicalization (originForm raw) = false

instance (raw : JsString) : Decidable (IsUntouched raw) := inferInstanceAs (Decidable (_ ∧ _))

omit [UrlParser] in
theorem head_originForm (raw : JsString) : (originForm raw).head? = some solidus := by
  rw [originForm]
  split
  · assumption
  · rfl

theorem normalize_untouched {target : Option JsString} (h : IsUntouched (rawTarget target)) :
    normalizeRequestTarget target = originForm (rawTarget target) := by
  obtain ⟨hform, hneeds⟩ := h
  rw [normalizeRequestTarget]
  dsimp only
  rw [originForm] at hneeds ⊢
  by_cases hslash : (rawTarget target).head? = some solidus
  · rw [if_pos hslash] at hneeds ⊢
    rw [if_pos hslash, hneeds]
    rfl
  · rw [if_neg hslash] at hneeds ⊢
    rw [if_neg hslash, hform.resolve_left hslash, hneeds]
    rfl

theorem normalize_written {target : Option JsString} (h : ¬ IsUntouched (rawTarget target)) :
    ∃ segments, Written segments (normalizeRequestTarget target) := by
  rw [normalizeRequestTarget]
  dsimp only
  by_cases hslash : (rawTarget target).head? = some solidus
  · rw [if_pos hslash]
    have hneeds : pathNeedsCanonicalization (rawTarget target) = true := by
      rw [← Bool.not_eq_false]
      intro hneeds
      exact h ⟨.inl hslash, by rwa [originForm, if_pos hslash]⟩
    rw [if_pos hneeds]
    exact canonicalOriginForm_written _
  · rw [if_neg hslash]
    split
    · rename_i habsolute
      cases hurl : parse (rawTarget target) with
      | none => exact ⟨_, written_slash⟩
      | some url =>
        obtain ⟨rest, hsegments, hquery⟩ := parse_absoluteForm habsolute hurl
        exact ⟨_, written_url hsegments hquery⟩
    · rename_i habsolute
      have hneeds : pathNeedsCanonicalization (solidus :: rawTarget target) = true := by
        rw [← Bool.not_eq_false]
        intro hneeds
        exact h ⟨.inr (by simpa using habsolute), by rwa [originForm, if_neg hslash]⟩
      rw [if_pos hneeds]
      exact canonicalOriginForm_written _

end Parsing

theorem keptInPath_of_plain {u : UInt16} (hplain : isRewritten u = false)
    (hends : endsPath u = false) (hu : u ≠ circumflex) : keptInPath u = true := by
  have hlt : u.toNat < 0x80 := by
    simp only [isRewritten, Bool.or_eq_false_iff, decide_eq_false_iff_not] at hplain
    omega
  have hall : ∀ k : Fin 0x80, isRewritten (UInt16.ofNat k.val) = false →
      endsPath (UInt16.ofNat k.val) = false → UInt16.ofNat k.val ≠ circumflex →
      keptInPath (UInt16.ofNat k.val) = true := by
    decide
  have hkept := hall ⟨u.toNat, hlt⟩
  rw [UInt16.ofNat_toNat] at hkept
  exact hkept hplain hends hu

theorem pathOf_untouched {t : JsString} (hslash : t.head? = some solidus)
    (h : pathNeedsCanonicalization t = false) : pathOf t = pathPart t ↔ circumflex ∉ pathPart t := by
  constructor
  · intro heq hmem
    rw [← heq] at hmem
    exact absurd (pathOf_kept t _ hmem) (by decide)
  · intro hmem
    have hthrough := needsFrom_false h
    apply pathOf_eq_pathPart hslash
    · intro hreverse
      exact absurd (hthrough.plain _ hreverse) (by decide)
    · have hpieces : pieces (pathPart t) = ((pathPart t).splitOnP isSlash).tail := by
        cases t with
        | nil => simp at hslash
        | cons u t =>
          obtain rfl : u = solidus := by simpa using hslash
          rw [pathPart_cons (by decide), pieces, List.head?_cons, List.tail_cons,
            if_pos (by simp [isSlash_solidus]), List.splitOnP_cons_eq_if_modifyHead,
            if_pos isSlash_solidus, List.tail_cons]
      intro piece hpiece
      have hharmless := hthrough.rest piece (by rwa [hpieces] at hpiece)
      refine ⟨fun u hu => ⟨?_, splitOnP_not _ piece hpiece u hu⟩, hharmless.not_dot.1,
        hharmless.not_dot.2⟩
      have hpath : u ∈ pathPart t := by
        have hpart := mem_of_mem_splitOnP piece hpiece hu
        split at hpart
        · exact List.mem_of_mem_tail hpart
        · exact hpart
      have hends : endsPath u = false := by simpa using List.mem_takeWhile_imp hpath
      exact keptInPath_of_plain (hthrough.plain u hpath) hends fun heq => hmem (heq ▸ hpath)

/-! ## The router's view -/

theorem afterScheme_origin {proto : JsString} (h : IsHttp proto) (s : JsString) :
    afterScheme (proto ++ js "://" ++ s) = some s := by
  have hskip : ∀ (c : UInt16) (rest : JsString), c ≠ 0x3A →
      afterScheme (c :: rest) = afterScheme rest := by
    intro c rest hc
    rw [afterScheme, if_neg]
    rintro ⟨more, hmore⟩
    exact hc (List.cons.inj hmore).1.symm
  have hend : afterScheme (js "://" ++ s) = some s := by
    have hpre : schemeEnd <+: (0x3A : UInt16) :: (0x2F :: 0x2F :: s) := ⟨s, rfl⟩
    have htext : js "://" ++ s = (0x3A : UInt16) :: (0x2F :: 0x2F :: s) := rfl
    rw [htext, afterScheme, if_pos hpre]
    rfl
  obtain rfl | rfl := h
  · have htext : js "http" ++ js "://" ++ s =
        0x68 :: 0x74 :: 0x74 :: 0x70 :: (js "://" ++ s) := rfl
    rw [htext, hskip _ _ (by decide), hskip _ _ (by decide), hskip _ _ (by decide),
      hskip _ _ (by decide), hend]
  · have htext : js "https" ++ js "://" ++ s =
        0x68 :: 0x74 :: 0x74 :: 0x70 :: 0x73 :: (js "://" ++ s) := rfl
    rw [htext, hskip _ _ (by decide), hskip _ _ (by decide), hskip _ _ (by decide),
      hskip _ _ (by decide), hskip _ _ (by decide), hend]

section Claims

variable [UrlParser]

open UrlParser

theorem getPathnameFast_origin {proto host s : JsString} (hproto : IsHttp proto)
    (hhost : PlainAuthority host) (hs : s.head? = some solidus) :
    getPathnameFast (proto ++ js "://" ++ host ++ s) = some (pathPart s) := by
  obtain ⟨rest, rfl⟩ : ∃ rest, s = solidus :: rest := by
    cases s with
    | nil => simp at hs
    | cons u s => exact ⟨s, by simpa using hs⟩
  have hopen : ∀ u ∈ host, u ≠ solidus ∧ u ≠ 92 ∧ u ≠ 63 ∧ u ≠ 35 := by
    intro u hu
    have hend := hhost.open_end u hu
    refine ⟨?_, ?_, ?_, ?_⟩
    all_goals
      rintro rfl
      exact absurd hend (by decide)
  have htake : (host ++ solidus :: rest).takeWhile (· ≠ solidus) = host := by
    rw [List.takeWhile_append_of_pos fun u hu => by simp [(hopen u hu).1],
      List.takeWhile_cons_of_neg (by simp), List.append_nil]
  have hdrop : (host ++ solidus :: rest).dropWhile (· ≠ solidus) = solidus :: rest := by
    rw [List.dropWhile_append_of_pos fun u hu => by simp [(hopen u hu).1],
      List.dropWhile_cons_of_neg (by simp)]
  have hplain : (host.any fun c => c == 92 || c == 63 || c == 35) = false := by
    rw [List.any_eq_false]
    intro u hu
    obtain ⟨-, h92, h63, h35⟩ := hopen u hu
    simp [h92, h63, h35]
  rw [getPathnameFast, List.append_assoc, afterScheme_origin hproto]
  dsimp only
  rw [htake, hdrop, hplain]
  simp

/-- The property, of a scheme, an authority and a target. -/
structure OnePath (proto host : JsString) (target : Option JsString) : Prop where
  fast : ∀ url, parse (proto ++ js "://" ++ host ++ normalizeRequestTarget target) = some url →
    getPathnameFast (proto ++ js "://" ++ host ++ normalizeRequestTarget target) = some url.pathname
  origin : (rawTarget target).head? = some solidus → ∀ url url',
    parse (proto ++ js "://" ++ host ++ normalizeRequestTarget target) = some url →
    parse (proto ++ js "://" ++ host ++ rawTarget target) = some url' → url.pathname = url'.pathname

/-- What stands behind the host that two leading slashes announce resolves to the path of the whole
target; where that is no host, the path is `/`. -/
def ReadAsPath (t : JsString) : Prop :=
  ∀ u v rest, clean t = u :: v :: rest → isSlash v = true →
    ((parseBehind (js "http:") rest).map Url.pathname).getD (js "/") = pathOf (clean t)

/-- The targets that are treated well. -/
structure Faithful (raw : JsString) : Prop where
  circumflex : IsUntouched raw → UrlStandard.circumflex ∉ pathPart (originForm raw)
  slashes : raw.head? = some solidus → pathNeedsCanonicalization raw = true → ReadAsPath raw

theorem canonicalOriginForm_path (hbase : (parseAuthority (js "http:") (js "h")).isSome = true)
    {t : JsString} (hslash : t.head? = some solidus) {segments : List JsString}
    (h : Written segments (canonicalOriginForm t)) :
    pathname segments = pathOf (clean t) ↔ ReadAsPath t := by
  obtain ⟨rest, rfl⟩ : ∃ rest, t = solidus :: rest := by
    cases t with
    | nil => simp at hslash
    | cons u t => exact ⟨t, by simpa using hslash⟩
  obtain ⟨authority, hauthority⟩ := Option.isSome_iff_exists.mp hbase
  have hparse : parse (js "http://h") =
      some { protocol := js "http:", authority, segments := segmentsOf [], query := none } := by
    have hbehind : parse (js "http://h") = (parseAuthority (js "http:") (js "h")).map
        fun authority =>
          { protocol := js "http:", authority, segments := segmentsOf [], query := none } := rfl
    rw [hbehind, hauthority]
    rfl
  have hclean : clean (solidus :: rest) = solidus :: cleanEnd rest := clean_eq_cleanEnd (by decide) _
  rw [canonicalOriginForm, hparse, Option.bind_some] at h
  rw [ReadAsPath, hclean]
  cases hend : cleanEnd rest with
  | nil =>
    rw [reference, hclean, hend] at h
    obtain rfl := h.unique (written_url (s := [solidus]) (t := [solidus]) rfl rfl)
    constructor
    · rintro - u v rest' heq
      simp at heq
    · intro _
      rfl
  | cons v rest' =>
    rw [reference, hclean, hend] at h
    dsimp only at h
    by_cases hv : isSlash v = true
    · rw [if_pos hv] at h
      have hpath : pathname segments =
          ((parseBehind (js "http:") rest').map Url.pathname).getD (js "/") := by
        cases hbehind : parseBehind (js "http:") rest' with
        | none =>
          rw [hbehind] at h
          obtain rfl := h.unique written_slash
          rfl
        | some url =>
          rw [hbehind] at h
          obtain ⟨behind, hsegments, hquery⟩ := parseBehind_eq_some hbehind
          obtain rfl := h.unique (written_url hsegments hquery)
          rfl
      constructor
      · rintro heq u v' more hmore -
        obtain ⟨-, hmore⟩ := List.cons.inj hmore
        obtain ⟨-, rfl⟩ := List.cons.inj hmore
        rw [← hpath, heq]
      · intro hread
        rw [hpath, hread solidus v rest' rfl hv]
    · rw [if_neg hv] at h
      obtain rfl := h.unique (written_url (s := solidus :: v :: rest') (t := solidus :: v :: rest') rfl rfl)
      constructor
      · rintro - u v' more hmore hslash
        obtain ⟨-, hmore⟩ := List.cons.inj hmore
        obtain ⟨rfl, -⟩ := List.cons.inj hmore
        exact absurd hslash hv
      · intro _
        rfl

theorem head_normalize (target : Option JsString) :
    (normalizeRequestTarget target).head? = some solidus := by
  by_cases h : IsUntouched (rawTarget target)
  · rw [normalize_untouched h]
    exact head_originForm _
  · obtain ⟨segments, hwritten⟩ := normalize_written h
    exact hwritten.head

theorem onePath_iff {proto host : JsString} (hproto : IsHttp proto) (hhost : PlainAuthority host)
    {authority : Authority} (hauthority : parseAuthority (proto ++ js ":") host = some authority)
    (target : Option JsString) :
    OnePath proto host target ↔
      pathPart (normalizeRequestTarget target) = pathOf (clean (normalizeRequestTarget target)) ∧
        ((rawTarget target).head? = some solidus →
          pathOf (clean (normalizeRequestTarget target)) = pathOf (clean (rawTarget target))) := by
  have hparse : ∀ {s : JsString}, s.head? = some solidus → ∀ url,
      parse (proto ++ js "://" ++ host ++ s) = some url ↔
        { protocol := proto ++ js ":", authority
          segments := segmentsOf (clean s), query := queryOf (clean s) } = url := by
    intro s hs url
    rw [parse_origin hproto hhost hs, hauthority, Option.map_some, Option.some_inj]
  have hnormal := head_normalize target
  constructor
  · intro h
    constructor
    · have hfast := h.fast _ ((hparse hnormal _).mpr rfl)
      rw [getPathnameFast_origin hproto hhost hnormal] at hfast
      exact Option.some.inj hfast
    · intro hslash
      exact h.origin hslash _ _ ((hparse hnormal _).mpr rfl) ((hparse hslash _).mpr rfl)
  · rintro ⟨hfast, horigin⟩
    constructor
    · intro url hurl
      obtain rfl := (hparse hnormal url).mp hurl
      rw [getPathnameFast_origin hproto hhost hnormal, hfast]
      rfl
    · intro hslash url url' hurl hurl'
      obtain rfl := (hparse hnormal url).mp hurl
      obtain rfl := (hparse hslash url').mp hurl'
      exact horigin hslash

omit [UrlParser] in
theorem pathOf_clean_untouched {t : JsString} (hslash : t.head? = some solidus)
    (h : pathNeedsCanonicalization t = false) : pathOf (clean t) = pathOf t := by
  have hvisible : Visible (pathPart t) := by
    intro u hu
    have hplain := (needsFrom_false h).plain u hu
    simp only [isRewritten, Bool.or_eq_false_iff, decide_eq_false_iff_not] at hplain
    simp only [isControlOrSpace, decide_eq_false_iff_not]
    omega
  cases t with
  | nil => simp at hslash
  | cons u t =>
    obtain rfl : u = solidus := by simpa using hslash
    have hclean : clean (solidus :: t) = cleanEnd (solidus :: t) := by
      rw [clean_eq_cleanEnd (by decide), cleanEnd_cons (by decide)]
    rw [hclean, pathOf, pathOf, segmentsOf, segmentsOf, pathPart_cleanEnd hvisible]

/-- **One path, exactly for the faithful targets**: an authority that the parser refuses has no path
to disagree on. -/
theorem one_path_iff (hbase : (parseAuthority (js "http:") (js "h")).isSome = true)
    {proto host : JsString} (hproto : IsHttp proto) (hhost : isPlainAuthority host = true)
    (target : Option JsString) :
    OnePath proto host target ↔
      parseAuthority (proto ++ js ":") host = none ∨ Faithful (rawTarget target) := by
  have hplain := plainAuthority hhost
  cases hauthority : parseAuthority (proto ++ js ":") host with
  | none =>
    have hparse : ∀ {s : JsString}, s.head? = some solidus →
        parse (proto ++ js "://" ++ host ++ s) = none := by
      intro s hs
      rw [parse_origin hproto hplain hs, hauthority]
      rfl
    refine ⟨fun _ => .inl rfl, fun _ => ⟨fun url hurl => ?_, fun _ url _ hurl => ?_⟩⟩
    · rw [hparse (head_normalize target)] at hurl
      simp at hurl
    · rw [hparse (head_normalize target)] at hurl
      simp at hurl
  | some authority =>
    rw [onePath_iff hproto hplain hauthority]
    simp only [reduceCtorEq, false_or]
    by_cases huntouched : IsUntouched (rawTarget target)
    · rw [normalize_untouched huntouched]
      have hslash := head_originForm (rawTarget target)
      rw [pathOf_clean_untouched hslash huntouched.2, eq_comm, pathOf_untouched hslash huntouched.2]
      constructor
      · rintro ⟨hcircumflex, -⟩
        refine ⟨fun _ => hcircumflex, fun hraw hneeds => ?_⟩
        have hform := huntouched.2
        rw [originForm, if_pos hraw, hneeds] at hform
        simp at hform
      · intro h
        refine ⟨h.circumflex huntouched, fun hraw => ?_⟩
        rw [originForm, if_pos hraw]
        have hform := huntouched.2
        rw [originForm, if_pos hraw] at hform
        exact (pathOf_clean_untouched hraw hform).symm
    · obtain ⟨segments, hwritten⟩ := normalize_written huntouched
      have hpath : pathOf (normalizeRequestTarget target) = pathname segments := by
        rw [pathOf, hwritten.segmentsOf_eq]
      rw [hwritten.clean_eq, hwritten.pathPart_eq, hpath]
      have hneeds : (rawTarget target).head? = some solidus →
          pathNeedsCanonicalization (rawTarget target) = true := by
        intro hraw
        rw [← Bool.not_eq_false]
        intro hneeds
        exact huntouched ⟨.inl hraw, by rwa [originForm, if_pos hraw]⟩
      have hread : (rawTarget target).head? = some solidus →
          (pathname segments = pathOf (clean (rawTarget target)) ↔ ReadAsPath (rawTarget target)) := by
        intro hraw
        apply canonicalOriginForm_path hbase hraw
        have hnormal : normalizeRequestTarget target = canonicalOriginForm (rawTarget target) := by
          rw [normalizeRequestTarget]
          dsimp only
          rw [if_pos hraw, if_pos (hneeds hraw)]
        rwa [hnormal] at hwritten
      constructor
      · rintro ⟨-, horigin⟩
        exact ⟨fun h => absurd h huntouched, fun hraw _ => (hread hraw).mp (horigin hraw)⟩
      · intro h
        exact ⟨rfl, fun hraw => (hread hraw).mpr (h.slashes hraw (hneeds hraw))⟩

end Claims

/-! ## Two targets -/

abbrev hostNameParser : UrlParser where
  parseAuthority _ host := some { hostname := host }
  parseOther _ := none

/-- `/a/./b?c` is one path. -/
theorem one_path_example : @OnePath hostNameParser (js "http") (js "localhost") (some (js "/a/./b?c")) :=
  (@one_path_iff hostNameParser rfl _ _ (.inl rfl) (by decide) _).mpr
    (.inr (@Faithful.mk hostNameParser _ (fun h => absurd h (by decide))
      fun _ _ u v rest h hv => by
        have hclean : clean (js "/a/./b?c") = js "/a/./b?c" := by decide
        obtain ⟨-, hmore⟩ := List.cons.inj (hclean.symm.trans h)
        rw [← (List.cons.inj hmore).1] at hv
        exact absurd hv (by decide)))

/-- The router serves `/a^b` where the middleware sees `/a%5Eb`, and `//admin/./x` becomes `/x`. -/
theorem circumflex_splits :
    ¬ @OnePath hostNameParser (js "http") (js "localhost") (some (js "/a^b")) ∧
      ¬ @OnePath hostNameParser (js "http") (js "localhost") (some (js "//admin/./x")) := by
  constructor
  · intro h
    have hfast := @OnePath.fast hostNameParser _ _ _ h
      { protocol := js "http:", authority := { hostname := js "localhost" }
        segments := [js "a%5Eb"], query := none } (by decide)
    revert hfast
    decide
  · intro h
    have horigin := @OnePath.origin hostNameParser _ _ _ h (by decide)
      { protocol := js "http:", authority := { hostname := js "localhost" }
        segments := [js "x"], query := none }
      { protocol := js "http:", authority := { hostname := js "localhost" }
        segments := [[], js "admin", js "x"], query := none } (by decide) (by decide)
    revert horigin
    decide

end Daloy.Adapters
