import Daloy.Foundations.UrlReferences
import Daloy.Http.Headers

/-! # Redirects to where they were told to go

`safeRedirect` of `src/safe-redirect.ts`.

* `StaysInside`: what a base makes of a `Location` that is a path. `LeavesTo`: what a parser makes
  of one that is not.
* `classify_inside`, `classify_leaves`: what the targets that are let through are.
-/

namespace Daloy.Security.SafeRedirects
set_option autoImplicit false

open Daloy.Http Daloy.Json Daloy.Unicode Daloy.UrlStandard

/-! ## The platform -/

/-- What is read of a `URL`; `path` is the text behind the scheme of one without an authority. -/
structure AbsoluteUrl where
  protocol : JsString
  hostname : JsString := []
  port : JsString := []
  path : JsString := []
  href : JsString
  deriving DecidableEq

def isHeaderBlank (u : UInt16) : Bool := u = 0x20 || u = 0x09 || u = 0x0A || u = 0x0D

/-- What `headers.set` stores of a value. -/
def normalizeValue (s : JsString) : JsString := (s.dropWhile isHeaderBlank).rdropWhile isHeaderBlank

/-- The URL parser, with what is relied on: a URL is written in printable ASCII and read back,
blanks around a text do not count, and a text without a colon is no URL. -/
class Platform where
  newUrl : JsString → Option AbsoluteUrl
  href_printable : ∀ {s : JsString} {url : AbsoluteUrl}, newUrl s = some url →
    ∀ u ∈ url.href, 0x20 ≤ u.toNat ∧ u.toNat ≤ 0x7E
  newUrl_href : ∀ {s : JsString} {url : AbsoluteUrl}, newUrl s = some url →
    newUrl url.href = some url
  newUrl_normalize : ∀ s : JsString, newUrl (normalizeValue s) = newUrl s
  newUrl_colon : ∀ {s : JsString} {url : AbsoluteUrl}, newUrl s = some url → colonSign ∈ s

def tupleProtocols : List JsString := [js "http:", js "https:", js "ws:", js "wss:", js "ftp:"]

def httpProtocols : List JsString := [js "http:", js "https:"]

def AbsoluteUrl.site (url : AbsoluteUrl) : JsString :=
  url.protocol ++ js "//" ++ url.hostname ++
    if url.port = [] then [] else colonSign :: url.port

section Origins

variable [Platform]

open Platform

/-- `url.origin`: that of a `blob:` URL is the one of the URL behind its scheme. -/
def AbsoluteUrl.origin (url : AbsoluteUrl) : JsString :=
  if url.protocol ∈ tupleProtocols then url.site
  else if url.protocol = js "blob:" then
    match newUrl url.path with
    | some inner => if inner.protocol ∈ httpProtocols then inner.site else js "null"
    | none => js "null"
  else js "null"

end Origins

/-! ## Targets -/

inductive BlockReason
  | emptyTarget
  | invalidControlCharacters
  | nonLatin1Target
  | protocolRelative
  | backslashPath
  | pathNotAllowed
  | originNotAllowed
  | schemeNotAllowed
  | parseFailed
  deriving DecidableEq

def isControlChar (u : UInt16) : Bool :=
  u.toNat ≤ 0x1F || (0x7F ≤ u.toNat && u.toNat ≤ 0x9F)

/-- A hexadecimal digit of `ENCODED_CONTROL_CHAR_RE`, which ignores the case. -/
def isHexUnit (u : UInt16) : Bool :=
  (0x30 ≤ u.toNat && u.toNat ≤ 0x39) || (0x41 ≤ u.toNat && u.toNat ≤ 0x46) ||
    (0x61 ≤ u.toNat && u.toNat ≤ 0x66)

/-- Whether `ENCODED_CONTROL_CHAR_RE` matches at the start of a text. -/
def startsEncodedControl : JsString → Bool
  | u :: v :: w :: _ =>
    u = percentSign && ((v ∈ js "01" && isHexUnit w) || (v = 0x37 && w ∈ js "fF"))
  | _ => false

/-- `ENCODED_CONTROL_CHAR_RE.test(value)`. -/
def hasEncodedControl (value : JsString) : Bool := value.tails.any startsEncodedControl

def isNonLatin1 (u : UInt16) : Bool := 0xFF < u.toNat

def hasEncodedBackslash (value : JsString) : Bool :=
  value.tails.any fun s => lowerAscii (s.take 3) = js "%5c"

/-- The loop of `hasEncodedProtocolRelativePrefix`, with the turns that are left. -/
def encodedPrefixLoop : ℕ → JsString → Bool
  | 0, raw => js "//" <+: raw
  | turns + 1, raw =>
    if lowerAscii (raw.take 4) = js "/%2f" then true
    else match decodeURIComponent raw with
      | none => false
      | some decoded => if decoded = raw then false else encodedPrefixLoop turns decoded

def hasEncodedProtocolRelativePrefix (value : JsString) : Bool := encodedPrefixLoop 3 value

def forbiddenSchemes : List JsString :=
  [js "javascript:", js "data:", js "vbscript:", js "file:"]

section Classification

variable [Platform]

open Platform

def classify (target : JsString) (allowedPaths allowedOrigins : List JsString) :
    Except BlockReason JsString :=
  if target = [] then .error .emptyTarget
  else if target.any isControlChar then .error .invalidControlCharacters
  else if hasEncodedControl target then .error .invalidControlCharacters
  else if js "//" <+: target then .error .protocolRelative
  else if js "/\\" <+: target then .error .backslashPath
  else if hasEncodedBackslash target then .error .backslashPath
  else if hasEncodedProtocolRelativePrefix target then .error .protocolRelative
  else if target.head? = some solidus then
    if reverseSolidus ∈ target then .error .backslashPath
    else if target.any isNonLatin1 then .error .nonLatin1Target
    else if allowedPaths.length = 0 then .error .pathNotAllowed
    else if js "/*" ∈ allowedPaths then .ok target
    else if pathPart target ∉ allowedPaths then .error .pathNotAllowed
    else .ok target
  else
    match newUrl target with
    | none => .error .parseFailed
    | some parsed =>
      if lowerAscii parsed.protocol ∈ forbiddenSchemes then .error .schemeNotAllowed
      else if parsed.origin ∉ allowedOrigins then .error .originNotAllowed
      else .ok parsed.href

end Classification

/-! ## The response -/

structure SafeRedirectOptions where
  allowedPaths : Option (List JsString) := none
  allowedOrigins : Option (List JsString) := none
  fallback : Option JsString := none
  status : Option ℕ := none
  /-- `new Headers(options.headers)`, `none` where it throws. -/
  headers : Option Headers := some {}

inductive SafeRedirectError
  | typeError (message : JsString)
  | openRedirectBlocked (reason : BlockReason) (target : JsString)
  /-- What `Headers` throws. -/
  | headers

structure RedirectResponse where
  status : ℕ
  headers : Headers

/-- `response.headers.get("location")`. -/
def RedirectResponse.location (r : RedirectResponse) : JsString := r.headers.value (js "location")

def IsHeaderText (s : JsString) : Prop :=
  ∀ u ∈ s, u.toNat < 0x100 ∧ u ≠ 0x00 ∧ u ≠ 0x0A ∧ u ≠ 0x0D

instance (s : JsString) : Decidable (IsHeaderText s) := inferInstanceAs (Decidable (∀ _ ∈ s, _))

def noStore : HeaderValue := ⟨js "no-store", by decide⟩

def buildResponse (location : JsString) (status : ℕ) (headers : Option Headers) :
    Except SafeRedirectError RedirectResponse :=
  match headers with
  | none => .error .headers
  | some merged =>
    if h : IsHeaderText (normalizeValue location) then
      let fields := merged.fields.set (js "location") ⟨normalizeValue location, h⟩
      .ok {
        status
        headers :=
          ⟨if (fields.get? (js "cache-control")).isSome then fields
            else fields.set (js "cache-control") noStore⟩ }
    else .error .headers

def checkPaths : List JsString → Except SafeRedirectError Unit
  | [] => .ok ()
  | p :: paths =>
    if p ≠ js "/*" ∧ p.head? ≠ some solidus then
      .error (.typeError (js "safeRedirect: allowedPaths entries must start with \"/\" (got " ++
        quote p ++ js ")"))
    else checkPaths paths

section Redirect

variable [Platform]

open Platform

def checkOrigins : List JsString → Except SafeRedirectError Unit
  | [] => .ok ()
  | o :: origins =>
    if o = [] then
      .error (.typeError (js "safeRedirect: allowedOrigins entries must be non-empty strings"))
    else match newUrl o with
      | none =>
        .error (.typeError (js "safeRedirect: allowedOrigins entry is not a valid URL: " ++ o))
      | some parsed =>
        if parsed.origin ≠ o then
          .error (.typeError (js "safeRedirect: allowedOrigins entry must be a bare origin " ++
            js "(scheme + host [+ port]); got " ++ o))
        else checkOrigins origins

def redirectStatuses : List ℕ := [301, 302, 303, 307, 308]

def redirectFallback (reason : BlockReason) (target : JsString) (options : SafeRedirectOptions)
    (status : ℕ) : Except SafeRedirectError RedirectResponse :=
  match options.fallback with
  | none => .error (.openRedirectBlocked reason target)
  | some fallback =>
    match classify fallback [js "/*"] [] with
    | .ok location =>
      if fallback.head? ≠ some solidus ∨ js "//" <+: fallback then
        .error (.typeError (js "safeRedirect: fallback must be a safe same-origin path starting " ++
          js "with \"/\"; got " ++ fallback))
      else buildResponse location status options.headers
    | .error _ =>
      .error (.typeError (js "safeRedirect: fallback must be a safe same-origin path starting " ++
        js "with \"/\"; got " ++ fallback))

def safeRedirect (target : JsString) (options : SafeRedirectOptions) :
    Except SafeRedirectError RedirectResponse := do
  let allowedPaths := options.allowedPaths.getD []
  let allowedOrigins := options.allowedOrigins.getD []
  let status := options.status.getD 303
  if status ∉ redirectStatuses then
    throw (.typeError (js "safeRedirect: status " ++ NumberText.write status ++
      js " is not a redirect status (allowed: 301, 302, 303, 307, 308)"))
  checkPaths allowedPaths
  checkOrigins allowedOrigins
  match classify target allowedPaths allowedOrigins with
  | .ok location => buildResponse location status options.headers
  | .error reason => redirectFallback reason target options status

end Redirect

/-! ## Where a location leads -/

def Admits (entry pathname : JsString) : Prop :=
  ∃ q, Ended q ∧ pathname = pathOf (clean (entry ++ q))

def AdmittedBy (allowedPaths : List JsString) (pathname : JsString) : Prop :=
  js "/*" ∈ allowedPaths ∨
    ∃ entry ∈ allowedPaths, Admits entry pathname ∧ (pathOf entry = entry → pathname = entry)

/-- Against every base the location has the origin of the base, and a path that is admitted. -/
def StaysInside [UrlParser] (allowedPaths : List JsString) (location : JsString) : Prop :=
  ∀ base : Url, base.protocol ∈ httpProtocols →
    ∃ url, resolveReference base location = some url ∧ url.protocol = base.protocol ∧
      url.authority = base.authority ∧ AdmittedBy allowedPaths url.pathname

def LeavesTo [Platform] (allowedOrigins : List JsString) (location : JsString) : Prop :=
  ∃ url, Platform.newUrl location = some url ∧ url.protocol ∉ forbiddenSchemes ∧
    ∃ origin ∈ allowedOrigins,
      (url.protocol ∈ tupleProtocols ∧ url.site = origin) ∨
        (url.protocol = js "blob:" ∧ ∃ inner, Platform.newUrl url.path = some inner ∧
          inner.protocol ∈ httpProtocols ∧ inner.site = origin)

theorem ended_cleanEnd {q : JsString} (h : Ended q) : Ended (cleanEnd q) := by
  cases q with
  | nil => exact h
  | cons u q =>
    rw [cleanEnd_cons (endsPath_visible (h u rfl))]
    exact fun v hv => h v hv

theorem Admits.eq {entry pathname : JsString} (h : Admits entry pathname)
    (hentry : pathOf entry = entry) : pathname = entry := by
  obtain ⟨q, hq, rfl⟩ := h
  have hkept : ∀ u ∈ entry, keptInPath u = true := hentry ▸ pathOf_kept entry
  have hopen : ∀ u ∈ entry, endsPath u = false := fun u hu => keptInPath_not_endsPath (hkept u hu)
  have hne : entry ≠ [] := by
    rintro rfl
    exact absurd hentry (by decide)
  have hvisible : Visible entry := by
    intro u hu
    have hrange := hkept u hu
    simp only [keptInPath, Bool.and_eq_true, decide_eq_true_eq] at hrange
    rw [isControlOrSpace, decide_eq_false_iff_not]
    omega
  have hpart : pathPart entry = entry := by
    have hwhole := pathPart_append hopen (q := []) (by simp [Ended])
    rwa [List.append_nil] at hwhole
  calc pathOf (clean (entry ++ q))
      = pathOf entry := by
        rw [clean_append hvisible hne, pathOf, segmentsOf, pathPart_append hopen
          (ended_cleanEnd hq), pathOf, segmentsOf, hpart]
    _ = entry := hentry

/-! ## Paths -/

structure PathTarget (target : JsString) : Prop where
  start : target.head? = some solidus
  visible : ∀ u ∈ target, 0x20 ≤ u.toNat ∧ u.toNat ≤ 0xFF ∧ u ≠ reverseSolidus
  single : ¬ js "//" <+: target

theorem dropWhile_congr {α : Type} {p q : α → Bool} {s : List α} (h : ∀ a ∈ s, p a = q a) :
    s.dropWhile p = s.dropWhile q := by
  induction s with
  | nil => rfl
  | cons a s ih =>
    rw [List.dropWhile_cons, List.dropWhile_cons, h a List.mem_cons_self,
      ih fun b hb => h b (List.mem_cons_of_mem _ hb)]

section Paths

variable {target : JsString}

theorem PathTarget.clean_eq (h : PathTarget target) :
    clean target = target.rdropWhile isControlOrSpace := by
  have hfront : target.dropWhile isControlOrSpace = target := by
    cases target with
    | nil => rfl
    | cons u target =>
      obtain rfl : u = solidus := by simpa using h.start
      exact List.dropWhile_cons_of_neg (by decide)
  rw [clean, hfront, List.filter_eq_self]
  intro u hu
  have hrange := h.visible u ((List.rdropWhile_prefix _ _).subset hu)
  cases htab : isTabOrNewline u with
  | false => rfl
  | true =>
    simp only [isTabOrNewline, Bool.or_eq_true, beq_iff_eq] at htab
    obtain (rfl | rfl) | rfl := htab
    · exact absurd hrange.1 (by decide)
    · exact absurd hrange.1 (by decide)
    · exact absurd hrange.1 (by decide)

theorem PathTarget.normalizeValue_eq (h : PathTarget target) :
    normalizeValue target = target.rdropWhile isControlOrSpace := by
  have hfront : target.dropWhile isHeaderBlank = target := by
    cases target with
    | nil => rfl
    | cons u target =>
      obtain rfl : u = solidus := by simpa using h.start
      exact List.dropWhile_cons_of_neg (by decide)
  rw [normalizeValue, hfront, List.rdropWhile, List.rdropWhile, dropWhile_congr]
  intro u hu
  have hrange := (h.visible u (List.mem_reverse.mp hu)).1
  rw [Bool.eq_iff_iff]
  simp only [isHeaderBlank, isControlOrSpace, Bool.or_eq_true, decide_eq_true_eq,
    ← UInt16.toNat_inj, UInt16.reduceToNat]
  omega

theorem PathTarget.trimmed (h : PathTarget target) :
    PathTarget (target.rdropWhile isControlOrSpace) := by
  have hpre := List.rdropWhile_prefix isControlOrSpace target
  refine ⟨?_, fun u hu => h.visible u (hpre.subset hu),
    fun hslashes => h.single (hslashes.trans hpre)⟩
  have hne : target.rdropWhile isControlOrSpace ≠ [] := by
    rw [Ne, List.rdropWhile_eq_nil_iff]
    intro hall
    have hstart := hall solidus (List.mem_of_mem_head? h.start)
    exact absurd hstart (by decide)
  obtain ⟨u, rest, hcons⟩ := List.exists_cons_of_ne_nil hne
  obtain ⟨tail, htail⟩ := hpre
  have hhead := h.start
  rw [← htail, hcons] at hhead
  rw [hcons]
  exact hhead

theorem PathTarget.resolve [UrlParser] (h : PathTarget target) (base : Url) :
    ∃ url, resolveReference base (normalizeValue target) = some url ∧
      url.protocol = base.protocol ∧ url.authority = base.authority ∧
      url.pathname = pathOf (clean target) := by
  have hclean : clean (normalizeValue target) = clean target := by
    rw [h.normalizeValue_eq, h.trimmed.clean_eq, List.rdropWhile_idempotent, h.clean_eq]
  have htwice : clean (clean target) = clean target := by
    rw [h.clean_eq, h.trimmed.clean_eq, List.rdropWhile_idempotent]
  have htrimmed : PathTarget (clean target) := h.clean_eq ▸ h.trimmed
  rw [resolveReference, hclean]
  cases hcons : clean target with
  | nil =>
    have hstart := htrimmed.start
    rw [hcons] at hstart
    cases hstart
  | cons u rest =>
    rw [hcons] at htrimmed htwice
    obtain rfl : u = solidus := by simpa using htrimmed.start
    have hscheme : schemeOf (solidus :: rest) = none := by
      rw [schemeOf, List.takeWhile_cons_of_neg (by decide)]
    rw [hscheme]
    dsimp only
    rw [relative, if_pos isSlash_solidus, reference, htwice]
    cases rest with
    | nil => exact ⟨_, rfl, rfl, rfl, rfl⟩
    | cons v rest =>
      have hv : isSlash v ≠ true := by
        intro hslash
        simp only [isSlash, Bool.or_eq_true, beq_iff_eq] at hslash
        obtain rfl | rfl := hslash
        · exact htrimmed.single ⟨rest, rfl⟩
        · exact (htrimmed.visible reverseSolidus (by simp)).2.2 rfl
      dsimp only
      rw [if_neg hv]
      exact ⟨_, rfl, rfl, rfl, rfl⟩

end Paths

/-! ## What is let through -/

section Classified

variable [Platform] {target location : JsString} {allowedPaths allowedOrigins : List JsString}

theorem classify_ok (h : classify target allowedPaths allowedOrigins = .ok location) :
    (target.head? = some solidus ∧ location = target ∧ PathTarget target ∧
      (js "/*" ∈ allowedPaths ∨ pathPart target ∈ allowedPaths)) ∨
    (target.head? ≠ some solidus ∧ ∃ url, Platform.newUrl target = some url ∧ location = url.href ∧
      lowerAscii url.protocol ∉ forbiddenSchemes ∧ url.origin ∈ allowedOrigins) := by
  rw [classify] at h
  obtain ⟨-, h⟩ := Fallible.check_eq_ok.mp h
  obtain ⟨hcontrol, h⟩ := Fallible.check_eq_ok.mp h
  obtain ⟨-, h⟩ := Fallible.check_eq_ok.mp h
  obtain ⟨hsingle, h⟩ := Fallible.check_eq_ok.mp h
  obtain ⟨-, h⟩ := Fallible.check_eq_ok.mp h
  obtain ⟨-, h⟩ := Fallible.check_eq_ok.mp h
  obtain ⟨-, h⟩ := Fallible.check_eq_ok.mp h
  by_cases hstart : target.head? = some solidus
  · left
    rw [if_pos hstart] at h
    obtain ⟨hslash, h⟩ := Fallible.check_eq_ok.mp h
    obtain ⟨hlatin, h⟩ := Fallible.check_eq_ok.mp h
    obtain ⟨-, h⟩ := Fallible.check_eq_ok.mp h
    have hpath : PathTarget target := by
      refine ⟨hstart, fun u hu => ?_, hsingle⟩
      simp only [List.any_eq_true, not_exists, not_and, Bool.not_eq_true] at hcontrol hlatin
      have hu1 := hcontrol u hu
      have hu2 := hlatin u hu
      simp only [isControlChar, isNonLatin1, Bool.or_eq_false_iff, decide_eq_false_iff_not]
        at hu1 hu2
      exact ⟨by omega, by omega, fun heq => hslash (heq ▸ hu)⟩
    by_cases hany : js "/*" ∈ allowedPaths
    · rw [if_pos hany] at h
      exact ⟨hstart, (Except.ok.inj h).symm, hpath, .inl hany⟩
    · rw [if_neg hany] at h
      obtain ⟨hmem, h⟩ := Fallible.check_eq_ok.mp h
      exact ⟨hstart, (Except.ok.inj h).symm, hpath, .inr (not_not.mp hmem)⟩
  · right
    rw [if_neg hstart] at h
    cases hurl : Platform.newUrl target with
    | none =>
      rw [hurl] at h
      cases h
    | some url =>
      rw [hurl] at h
      obtain ⟨hscheme, h⟩ := Fallible.check_eq_ok.mp h
      obtain ⟨horigin, h⟩ := Fallible.check_eq_ok.mp h
      exact ⟨hstart, url, rfl, (Except.ok.inj h).symm, hscheme, not_not.mp horigin⟩

theorem classify_inside [UrlParser] (h : classify target allowedPaths allowedOrigins = .ok location)
    (hstart : target.head? = some solidus) :
    StaysInside allowedPaths (normalizeValue location) := by
  obtain ⟨-, rfl, hpath, hallowed⟩ | ⟨hnot, -⟩ := classify_ok h
  · intro base _
    obtain ⟨url, hurl, hprotocol, hauthority, hpathname⟩ := hpath.resolve base
    refine ⟨url, hurl, hprotocol, hauthority, hallowed.imp id fun hmem => ?_⟩
    have hadmits : Admits (pathPart location) url.pathname := by
      refine ⟨location.dropWhile fun u => !endsPath u, fun u hu => ?_, ?_⟩
      · have hhead := List.head?_dropWhile_not (fun u => !endsPath u) location
        rw [hu] at hhead
        simpa using hhead
      · rw [hpathname, pathPart, List.takeWhile_append_dropWhile]
    exact ⟨pathPart location, hmem, hadmits, hadmits.eq⟩
  · exact absurd hstart hnot

theorem classify_leaves (h : classify target allowedPaths allowedOrigins = .ok location)
    (hstart : target.head? ≠ some solidus) (hnull : js "null" ∉ allowedOrigins) :
    LeavesTo allowedOrigins (normalizeValue location) := by
  obtain ⟨hpath, -⟩ | ⟨-, url, hurl, rfl, hscheme, horigin⟩ := classify_ok h
  · exact absurd hpath hstart
  refine ⟨url, ?_, ?_, ?_⟩
  · rw [Platform.newUrl_normalize, Platform.newUrl_href hurl]
  · have hlower : ∀ scheme ∈ forbiddenSchemes, lowerAscii scheme = scheme := by decide
    exact fun hmem => hscheme (by rwa [hlower _ hmem])
  · unfold AbsoluteUrl.origin at horigin
    split at horigin
    · rename_i htuple
      exact ⟨url.site, horigin, .inl ⟨htuple, rfl⟩⟩
    split at horigin
    · rename_i hblob
      split at horigin
      · rename_i inner hinner
        split at horigin
        · rename_i hhttp
          exact ⟨inner.site, horigin, .inr ⟨hblob, inner, hinner, hhttp, rfl⟩⟩
        · exact absurd horigin hnull
      · exact absurd horigin hnull
    · exact absurd horigin hnull

theorem classify_headerText (h : classify target allowedPaths allowedOrigins = .ok location) :
    IsHeaderText (normalizeValue location) := by
  have hrange : ∀ u ∈ location, 0x20 ≤ u.toNat ∧ u.toNat ≤ 0xFF := by
    intro u hu
    obtain ⟨-, rfl, hpath, -⟩ | ⟨-, url, hurl, rfl, -⟩ := classify_ok h
    · exact ⟨(hpath.visible u hu).1, (hpath.visible u hu).2.1⟩
    · have hprintable := Platform.href_printable hurl u hu
      exact ⟨hprintable.1, by omega⟩
  have htext : IsHeaderText location := by
    intro u hu
    obtain ⟨hlow, hhigh⟩ := hrange u hu
    refine ⟨by omega, ?_, ?_, ?_⟩
    all_goals
      rintro rfl
      exact absurd hlow (by decide)
  intro u hu
  exact htext u ((List.dropWhile_sublist _).subset ((List.rdropWhile_prefix _ _).subset hu))

/-! ## The whole call -/

omit [Platform] in
theorem buildResponse_location {status : ℕ} {headers : Option Headers}
    (h : IsHeaderText (normalizeValue location)) :
    (headers = none ∧ buildResponse location status headers = .error .headers) ∨
      ∃ r, buildResponse location status headers = .ok r ∧ r.status = status ∧
        r.location = normalizeValue location := by
  cases headers with
  | none => exact .inl ⟨rfl, rfl⟩
  | some merged =>
    right
    rw [buildResponse]
    dsimp only
    rw [dif_pos h]
    refine ⟨_, rfl, rfl, ?_⟩
    have hlower : toLowerCase (js "location") = js "location" := by decide
    have hother : js "location" ≠ js "cache-control" := by decide
    rw [RedirectResponse.location, Headers.value, hlower]
    dsimp only
    split
    · rw [JsMap.get?_set, if_pos rfl]
      rfl
    · rw [JsMap.get?_set, if_neg hother, JsMap.get?_set, if_pos rfl]
      rfl

omit [Platform] in
theorem checkPaths_error {paths : List JsString} {e : SafeRedirectError}
    (h : checkPaths paths = .error e) :
    (∃ message, e = .typeError message) ∧
      ∃ p ∈ paths, p ≠ js "/*" ∧ p.head? ≠ some solidus := by
  induction paths with
  | nil => cases h
  | cons p paths ih =>
    rw [checkPaths] at h
    split at h
    · rename_i hp
      exact ⟨⟨_, (Except.error.inj h).symm⟩, p, List.mem_cons_self, hp⟩
    · obtain ⟨hmessage, q, hq, hbad⟩ := ih h
      exact ⟨hmessage, q, List.mem_cons_of_mem _ hq, hbad⟩

/-- An entry of `allowedOrigins` is an origin as it is written. -/
def IsBareOrigin (origin : JsString) : Prop :=
  ∃ url, Platform.newUrl origin = some url ∧ url.origin = origin

theorem checkOrigins_ok {origins : List JsString} (h : checkOrigins origins = .ok ()) :
    ∀ origin ∈ origins, IsBareOrigin origin := by
  induction origins with
  | nil => simp
  | cons o origins ih =>
    rw [checkOrigins] at h
    obtain ⟨-, h⟩ := Fallible.check_eq_ok.mp h
    cases hurl : Platform.newUrl o with
    | none =>
      rw [hurl] at h
      cases h
    | some url =>
      rw [hurl] at h
      obtain ⟨horigin, h⟩ := Fallible.check_eq_ok.mp h
      rw [List.forall_mem_cons]
      exact ⟨⟨url, hurl, not_not.mp horigin⟩, ih h⟩

theorem checkOrigins_error {origins : List JsString} {e : SafeRedirectError}
    (h : checkOrigins origins = .error e) :
    (∃ message, e = .typeError message) ∧ ∃ origin ∈ origins, ¬ IsBareOrigin origin := by
  induction origins with
  | nil => cases h
  | cons o origins ih =>
    rw [checkOrigins] at h
    split at h
    · rename_i hnil
      refine ⟨⟨_, (Except.error.inj h).symm⟩, o, List.mem_cons_self, fun hbare => ?_⟩
      obtain ⟨url, hurl, -⟩ := hbare
      have hcolon := Platform.newUrl_colon hurl
      rw [hnil] at hcolon
      cases hcolon
    split at h
    · rename_i hnone
      refine ⟨⟨_, (Except.error.inj h).symm⟩, o, List.mem_cons_self, fun hbare => ?_⟩
      obtain ⟨url, hurl, -⟩ := hbare
      rw [hnone] at hurl
      cases hurl
    · rename_i url hurl
      split at h
      · rename_i horigin
        refine ⟨⟨_, (Except.error.inj h).symm⟩, o, List.mem_cons_self, fun hbare => ?_⟩
        obtain ⟨url', hurl', hbare⟩ := hbare
        obtain rfl := Option.some.inj (hurl.symm.trans hurl')
        exact horigin hbare
      · obtain ⟨hmessage, origin, hmem, hbad⟩ := ih h
        exact ⟨hmessage, origin, List.mem_cons_of_mem _ hmem, hbad⟩

theorem not_isBareOrigin_null : ¬ IsBareOrigin (js "null") := by
  intro hbare
  obtain ⟨url, hurl, -⟩ := hbare
  exact absurd (Platform.newUrl_colon hurl) (by decide)

def Malformed (options : SafeRedirectOptions) : Prop :=
  options.status.getD 303 ∉ redirectStatuses ∨
    (∃ p ∈ options.allowedPaths.getD [], p ≠ js "/*" ∧ p.head? ≠ some solidus) ∨
    (∃ origin ∈ options.allowedOrigins.getD [], ¬ IsBareOrigin origin) ∨
    options.headers = none ∨
    ∃ fallback ∈ options.fallback, fallback.head? ≠ some solidus ∨
      ∃ reason, classify fallback [js "/*"] [] = .error reason

theorem safeRedirect_eq {target : JsString} {options : SafeRedirectOptions}
    (hstatus : options.status.getD 303 ∈ redirectStatuses)
    (hpaths : checkPaths (options.allowedPaths.getD []) = .ok ())
    (horigins : checkOrigins (options.allowedOrigins.getD []) = .ok ()) :
    safeRedirect target options =
      match classify target (options.allowedPaths.getD []) (options.allowedOrigins.getD []) with
      | .ok location => buildResponse location (options.status.getD 303) options.headers
      | .error reason =>
        redirectFallback reason target options (options.status.getD 303) := by
  rw [safeRedirect, if_neg (not_not.mpr hstatus), hpaths, horigins]
  rfl

theorem safeRedirect_checks (target : JsString) (options : SafeRedirectOptions) :
    (options.status.getD 303 ∈ redirectStatuses ∧
      checkPaths (options.allowedPaths.getD []) = .ok () ∧
      checkOrigins (options.allowedOrigins.getD []) = .ok ()) ∨
    (∃ e, safeRedirect target options = .error e ∧ Malformed options) := by
  by_cases hstatus : options.status.getD 303 ∈ redirectStatuses
  · cases hpaths : checkPaths (options.allowedPaths.getD []) with
    | error e =>
      refine .inr ⟨e, ?_, .inr (.inl (checkPaths_error hpaths).2)⟩
      rw [safeRedirect, if_neg (not_not.mpr hstatus), hpaths]
      rfl
    | ok _ =>
      cases horigins : checkOrigins (options.allowedOrigins.getD []) with
      | error e =>
        refine .inr ⟨e, ?_, .inr (.inr (.inl (checkOrigins_error horigins).2))⟩
        rw [safeRedirect, if_neg (not_not.mpr hstatus), hpaths, horigins]
        rfl
      | ok _ => exact .inl ⟨hstatus, rfl, rfl⟩
  · have hthrow : ∃ e, safeRedirect target options = .error e := by
      rw [safeRedirect, if_pos hstatus]
      exact ⟨_, rfl⟩
    obtain ⟨e, he⟩ := hthrow
    exact .inr ⟨e, he, .inl hstatus⟩

theorem redirectFallback_cases [UrlParser] (reason : BlockReason) (target : JsString)
    (options : SafeRedirectOptions) (status : ℕ) :
    (∃ r fallback, redirectFallback reason target options status = .ok r ∧ r.status = status ∧
      options.fallback = some fallback ∧ r.location = normalizeValue fallback ∧
        StaysInside [js "/*"] r.location) ∨
    (redirectFallback reason target options status = .error (.openRedirectBlocked reason target) ∧
      options.fallback = none) ∨
    (∃ e, redirectFallback reason target options status = .error e ∧ Malformed options) := by
  rw [redirectFallback]
  cases hfallback : options.fallback with
  | none => exact .inr (.inl ⟨rfl, rfl⟩)
  | some fallback =>
    dsimp only
    cases hclassify : classify fallback [js "/*"] [] with
    | error refused =>
      refine .inr (.inr ⟨_, rfl, .inr (.inr (.inr (.inr ⟨fallback, hfallback, .inr ?_⟩)))⟩)
      exact ⟨refused, hclassify⟩
    | ok location =>
      dsimp only
      by_cases hstart : fallback.head? = some solidus
      · obtain ⟨-, rfl, hpath, -⟩ | ⟨hnot, -⟩ := classify_ok hclassify
        · have hsingle : ¬ (location.head? ≠ some solidus ∨ js "//" <+: location) := by
            rw [not_or]
            exact ⟨not_not.mpr hstart, hpath.single⟩
          rw [if_neg hsingle]
          obtain ⟨hnone, herror⟩ | ⟨r, hr, hstatus, hlocation⟩ :=
            @buildResponse_location location status options.headers (classify_headerText hclassify)
          · exact .inr (.inr ⟨_, herror, .inr (.inr (.inr (.inl hnone)))⟩)
          · refine .inl ⟨r, location, hr, hstatus, rfl, hlocation, ?_⟩
            rw [hlocation]
            exact classify_inside hclassify hstart
        · exact absurd hstart hnot
      · rw [if_pos (.inl hstart)]
        exact .inr (.inr ⟨_, rfl, .inr (.inr (.inr (.inr ⟨fallback, hfallback, .inl hstart⟩)))⟩)

/-- **A redirect goes where it was told to**: inside, to an allowed origin, or to the fallback,
which is inside; a target that is refused is an error without one. -/
theorem safe_redirect_stays [UrlParser] (target : JsString) (options : SafeRedirectOptions) :
    (∀ r, safeRedirect target options = .ok r →
      r.status ∈ redirectStatuses ∧
        (StaysInside (options.allowedPaths.getD []) r.location ∨
          LeavesTo (options.allowedOrigins.getD []) r.location ∨
          ((∃ reason, classify target (options.allowedPaths.getD [])
              (options.allowedOrigins.getD []) = .error reason) ∧
            ∃ fallback, options.fallback = some fallback ∧ r.location = normalizeValue fallback ∧
              StaysInside [js "/*"] r.location))) ∧
    (∀ e, safeRedirect target options = .error e →
      (∃ reason, e = .openRedirectBlocked reason target ∧ options.fallback = none ∧
        classify target (options.allowedPaths.getD []) (options.allowedOrigins.getD []) =
          .error reason) ∨
      Malformed options) := by
  obtain ⟨hstatus, hpaths, horigins⟩ | ⟨e, he, hmalformed⟩ := safeRedirect_checks target options
  · rw [safeRedirect_eq hstatus hpaths horigins]
    have hnull : js "null" ∉ options.allowedOrigins.getD [] := fun hmem =>
      not_isBareOrigin_null (checkOrigins_ok horigins _ hmem)
    cases hclassify : classify target (options.allowedPaths.getD [])
        (options.allowedOrigins.getD []) with
    | ok location =>
      dsimp only
      obtain ⟨hnone, herror⟩ | ⟨r, hr, hsame, hlocation⟩ := @buildResponse_location location
        (options.status.getD 303) options.headers (classify_headerText hclassify)
      · rw [herror]
        exact ⟨by simp, fun e _ => .inr (.inr (.inr (.inr (.inl hnone))))⟩
      · rw [hr]
        refine ⟨fun r' hr' => ?_, by simp⟩
        obtain rfl := Except.ok.inj hr'
        refine ⟨hsame ▸ hstatus, ?_⟩
        rw [hlocation]
        by_cases hstart : target.head? = some solidus
        · exact .inl (classify_inside hclassify hstart)
        · exact .inr (.inl (classify_leaves hclassify hstart hnull))
    | error reason =>
      dsimp only
      obtain ⟨r, fallback, hr, hsame, hfallback, hinside⟩ | ⟨herror, hnone⟩ | ⟨e, he, hbad⟩ :=
        redirectFallback_cases reason target options (options.status.getD 303)
      · rw [hr]
        refine ⟨fun r' hr' => ?_, by simp⟩
        obtain rfl := Except.ok.inj hr'
        exact ⟨hsame ▸ hstatus, .inr (.inr ⟨⟨reason, rfl⟩, fallback, hfallback, hinside⟩)⟩
      · rw [herror]
        refine ⟨by simp, fun e he => .inl ⟨reason, (Except.error.inj he).symm, hnone, rfl⟩⟩
      · rw [he]
        exact ⟨by simp, fun _ _ => .inr hbad⟩
  · rw [he]
    exact ⟨by simp, fun _ _ => .inr hmalformed⟩

end Classified

/-! ## A platform with a few URLs -/

def appUrl (path : String) : AbsoluteUrl where
  protocol := js "https:"
  hostname := js "app.example.com"
  href := js "https://app.example.com" ++ js path

def blobUrl : AbsoluteUrl where
  protocol := js "blob:"
  path := js "https://app.example.com/0"
  href := js "blob:https://app.example.com/0"

def knownUrls : List (JsString × AbsoluteUrl) :=
  [(js "https://app.example.com", appUrl "/"), (js "https://app.example.com/", appUrl "/"),
    (js "https://app.example.com/0", appUrl "/0"), (js "blob:https://app.example.com/0", blobUrl)]

def withoutBlanks (s : JsString) : JsString := s.filter fun u => !isHeaderBlank u

theorem withoutBlanks_dropWhile (s : JsString) :
    withoutBlanks (s.dropWhile isHeaderBlank) = withoutBlanks s := by
  induction s with
  | nil => rfl
  | cons u s ih =>
    rw [List.dropWhile_cons]
    split
    · rename_i hu
      rw [ih, withoutBlanks, withoutBlanks, List.filter_cons_of_neg (by simp [hu])]
    · rfl

theorem withoutBlanks_normalizeValue (s : JsString) :
    withoutBlanks (normalizeValue s) = withoutBlanks s := by
  have hreverse (t : JsString) : withoutBlanks t.reverse = (withoutBlanks t).reverse :=
    List.filter_reverse
  rw [normalizeValue, List.rdropWhile, hreverse, withoutBlanks_dropWhile, hreverse,
    List.reverse_reverse, withoutBlanks_dropWhile]

def knownUrl (s : JsString) : Option AbsoluteUrl :=
  (knownUrls.find? fun e => e.1 = withoutBlanks s).map Prod.snd

theorem mem_knownUrls {s : JsString} {url : AbsoluteUrl} (h : knownUrl s = some url) :
    (withoutBlanks s, url) ∈ knownUrls := by
  rw [knownUrl, Option.map_eq_some_iff] at h
  obtain ⟨e, he, rfl⟩ := h
  have hkey : e.1 = withoutBlanks s := by simpa using List.find?_some he
  rw [← hkey]
  exact List.mem_of_find?_eq_some he

abbrev examplePlatform : Platform where
  newUrl := knownUrl
  href_printable h := by
    have hall : ∀ e ∈ knownUrls, ∀ u ∈ e.2.href, 0x20 ≤ u.toNat ∧ u.toNat ≤ 0x7E := by decide
    exact hall _ (mem_knownUrls h)
  newUrl_href h := by
    have hall : ∀ e ∈ knownUrls, knownUrl e.2.href = some e.2 := by decide
    exact hall _ (mem_knownUrls h)
  newUrl_normalize s := by rw [knownUrl, withoutBlanks_normalizeValue, knownUrl]
  newUrl_colon h := by
    have hall : ∀ e ∈ knownUrls, colonSign ∈ e.1 := by decide
    exact (List.mem_filter.mp (hall _ (mem_knownUrls h))).1

def exampleOptions : SafeRedirectOptions where
  allowedPaths := some [js "/dashboard"]
  allowedOrigins := some [js "https://app.example.com"]

/-- A `blob:` URL is let through for the origin of the URL behind its scheme: the `Location` is
neither a path nor a URL of the schemes `http` and `https`. -/
theorem blob_location :
    ∃ r, @safeRedirect examplePlatform (js "blob:https://app.example.com/0") exampleOptions =
        .ok r ∧
      r.location = js "blob:https://app.example.com/0" ∧
      r.location.head? ≠ some solidus ∧
      ∃ url, knownUrl r.location = some url ∧ url.protocol ∉ httpProtocols := by
  have hclassify : @classify examplePlatform blobUrl.href [js "/dashboard"]
      [js "https://app.example.com"] = .ok blobUrl.href := by
    decide +kernel
  have hcall := @safeRedirect_eq examplePlatform blobUrl.href exampleOptions (by decide) rfl rfl
  have hsame : normalizeValue blobUrl.href = blobUrl.href := by decide
  obtain ⟨hnone, -⟩ | ⟨r, hr, -, hlocation⟩ := @buildResponse_location blobUrl.href
    303 (some {}) (@classify_headerText examplePlatform _ _ _ _ hclassify)
  · cases hnone
  · refine ⟨r, hcall.trans ?_, ?_⟩
    · rw [show exampleOptions.allowedPaths.getD [] = [js "/dashboard"] from rfl,
        show exampleOptions.allowedOrigins.getD [] = [js "https://app.example.com"] from rfl,
        hclassify]
      exact hr
    · rw [hlocation, hsame]
      exact ⟨rfl, by decide, blobUrl, by decide, by decide⟩

end Daloy.Security.SafeRedirects
