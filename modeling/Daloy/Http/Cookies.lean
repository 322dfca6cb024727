import Daloy.Foundations.Numerals
import Daloy.Foundations.UriEncoding
import Daloy.Http.Headers

/-! # Cookies

The helpers of `src/cookie.ts`: `assertCookieAttributes`, `serializeCookie` and
`readRequestCookie`.

* `splitOn_joined`: the parts of a text joined with `"; "`.
* `serialized`: what `serializeCookie` writes, and when.
* `readParts_eq`, `read_pairs`: what is read from a header.
-/

namespace Daloy.Http.Cookies
set_option autoImplicit false

open Daloy.Fallible Daloy.Json Daloy.Text Daloy.Unicode Daloy.UrlStandard

/-! ## The source -/

def semicolon : UInt16 := 0x3B

structure CookieAttributes where
  sameSite : Option JsString := none
  secure : Option Bool := none
  httpOnly : Option Bool := none
  path : Option JsString := none
  domain : Option JsString := none
  maxAgeSeconds : Option Number := none
  partitioned : Option Bool := none

inductive CookieError
  /-- `Error`, by its message. -/
  | message (text : JsString)
  /-- The `URIError` of `encodeURIComponent`. -/
  | uriError
  deriving DecidableEq

def isInteger : Number → Bool
  | .zero _ => true
  | .finite _ magnitude => (magnitude.digits.length : ℤ) ≤ magnitude.point
  | _ => false

/-- `n < 0`. -/
def isNegative : Number → Bool
  | .finite negative _ => negative
  | .infinity negative => negative
  | _ => false

/-- `n > 0`. -/
def isPositive : Number → Bool
  | .finite negative _ => !negative
  | .infinity negative => !negative
  | _ => false

/-- `/[;\r\n\0]/`. -/
def isInvalidUnit (u : UInt16) : Bool := u ∈ [semicolon, 0x0D, lineFeed, 0x00]

def CookieAttributes.resolvedSameSite (a : CookieAttributes) : JsString :=
  a.sameSite.getD (js "Strict")

def CookieAttributes.isSecure (a : CookieAttributes) : Bool := a.secure.getD true

def CookieAttributes.isHttpOnly (a : CookieAttributes) : Bool := a.httpOnly.getD true

def CookieAttributes.resolvedPath (a : CookieAttributes) : JsString := a.path.getD (js "/")

def refuse (scope text : JsString) : Except CookieError Unit :=
  .error (.message (scope ++ js ": " ++ text))

def validatePathOrDomain (scope kind value : JsString) : Except CookieError Unit :=
  if value.any isInvalidUnit then
    refuse scope (js "cookie " ++ kind ++ js " contains an invalid character.")
  else .ok ()

def assertCookieAttributes (scope name : JsString) (a : CookieAttributes) (isProduction : Bool) :
    Except CookieError Unit := do
  -- `COOKIE_NAME_RE` is the grammar of a token
  if ¬ IsToken name then
    refuse scope (js "cookieName (cookie name) \"" ++ name ++
      js "\" is not a valid cookie name (RFC 6265 token).")
  if a.resolvedSameSite ≠ js "Strict" ∧ a.resolvedSameSite ≠ js "Lax" ∧
      a.resolvedSameSite ≠ js "None" then
    refuse scope (js "cookieOptions.sameSite must be \"Strict\", \"Lax\", or \"None\".")
  if ¬ js "/" <+: a.resolvedPath then
    refuse scope (js "cookieOptions.path must start with \"/\".")
  validatePathOrDomain scope (js "path") a.resolvedPath
  if a.domain = some [] then
    refuse scope (js "cookieOptions.domain must be a non-empty string when set.")
  a.domain.toList.forM (validatePathOrDomain scope (js "domain"))
  if a.maxAgeSeconds.any fun n => !isInteger n || isNegative n then
    refuse scope (js "cookieOptions.maxAgeSeconds must be a non-negative integer.")
  if a.resolvedSameSite = js "None" ∧ ¬ a.isSecure then
    refuse scope (js "cookieOptions.sameSite: \"None\" requires secure: true.")
  if a.partitioned = some true ∧ ¬ a.isSecure then
    refuse scope (js "cookieOptions.partitioned: true requires secure: true.")
  if js "__Host-" <+: name ∧
      (¬ a.isSecure ∨ a.resolvedPath ≠ js "/" ∨ a.domain.any fun d => d ≠ []) then
    refuse scope
      (js "\"__Host-\" cookie names require secure: true, path: \"/\", and no domain.")
  if js "__Secure-" <+: name ∧ ¬ a.isSecure then
    refuse scope (js "\"__Secure-\" cookie names require secure: true. " ++
      if isProduction then
        js "Production refuse-to-boot: a browser will silently drop this cookie over HTTP."
      else js "Drop the prefix or pass secure: true.")

/-- What `serializeCookie` appends to the pair. -/
def attributesText (a : CookieAttributes) : JsString :=
  js "; Path=" ++ a.resolvedPath ++
    js "; SameSite=" ++ a.resolvedSameSite ++
    (if a.isSecure then js "; Secure" else []) ++
    (if a.isHttpOnly then js "; HttpOnly" else []) ++
    (a.domain.elim [] fun domain => if domain = [] then [] else js "; Domain=" ++ domain) ++
    -- a finite number is written as in JSON
    (a.maxAgeSeconds.elim [] fun n => if isPositive n then js "; Max-Age=" ++ n.jsonText else []) ++
    (if a.partitioned.getD false then js "; Partitioned" else [])

def serializeCookie (name value : JsString) (attributes : CookieAttributes) :
    Except CookieError JsString := do
  assertCookieAttributes (js "serializeCookie()") name attributes false
  match encodeURIComponent value with
  | none => .error .uriError
  | some encoded => .ok (name ++ equalsSign :: encoded ++ attributesText attributes)

def partName (part : JsString) : JsString := trim (part.takeWhile (· ≠ equalsSign))

def isNamed (name part : JsString) : Bool := equalsSign ∈ part ∧ partName part = name

def partValue (part : JsString) : JsString :=
  let v := trim (part.dropWhile (· ≠ equalsSign)).tail
  (decodeURIComponent v).getD v

def readParts (name : JsString) : List JsString → Option JsString → Option JsString
  | [], found => found
  | part :: parts, found =>
    if isNamed name part then
      -- a second copy
      if found.isSome then none else readParts name parts (some (partValue part))
    else readParts name parts found

def readRequestCookie (header : Option JsString) (name : JsString) : Option JsString :=
  match header with
  | none => none
  | some header => if header = [] then none else readParts name (splitOn semicolon header) none

/-! ## The attributes of a text

What the statements below say about a text: an attribute is what stands between two semicolons,
without the spaces in front of it, a name and what follows the first `=`. -/

def readAttribute (piece : JsString) : JsString × Option JsString :=
  if equalsSign ∈ piece then
    (piece.takeWhile (· ≠ equalsSign), some (piece.dropWhile (· ≠ equalsSign)).tail)
  else (piece, none)

def attributesOf (text : JsString) : List (JsString × Option JsString) :=
  (splitOn semicolon text).tail.map fun piece => readAttribute (piece.dropWhile (· = space))

def CookieAttributes.requested (a : CookieAttributes) : List (JsString × Option JsString) :=
  [(js "Path", some a.resolvedPath), (js "SameSite", some a.resolvedSameSite)] ++
    (if a.secure = some false then [] else [(js "Secure", none)]) ++
    (if a.httpOnly = some false then [] else [(js "HttpOnly", none)]) ++
    (a.domain.toList.map fun domain => (js "Domain", some domain)) ++
    ((a.maxAgeSeconds.toList.filter isPositive).map fun n => (js "Max-Age", some n.jsonText)) ++
    (if a.partitioned = some true then [(js "Partitioned", none)] else [])

/-- The `name=value` part of a `Set-Cookie` text. -/
def pairOf (text : JsString) : JsString := text.takeWhile (· ≠ semicolon)

/-- The pairs as the `Cookie` header of a request. -/
def cookieHeader (texts : List JsString) : JsString := (js "; ").intercalate (texts.map pairOf)

/-! ## What is accepted -/

/-- What `assertCookieAttributes` accepts, whatever the label and the environment. -/
structure Accepted (name : JsString) (a : CookieAttributes) : Prop where
  name_token : IsToken name
  sameSite_known : a.resolvedSameSite = js "Strict" ∨ a.resolvedSameSite = js "Lax" ∨
    a.resolvedSameSite = js "None"
  path_slash : js "/" <+: a.resolvedPath
  path_clean : a.resolvedPath.any isInvalidUnit = false
  domain_ne_nil : a.domain ≠ some []
  domain_clean : ∀ domain ∈ a.domain, domain.any isInvalidUnit = false
  maxAge_natural : ∀ n ∈ a.maxAgeSeconds, isInteger n = true ∧ isNegative n = false
  secure_of_none : a.resolvedSameSite = js "None" → a.isSecure = true
  secure_of_partitioned : a.partitioned = some true → a.isSecure = true
  host_rule : js "__Host-" <+: name →
    a.isSecure = true ∧ a.resolvedPath = js "/" ∧ ∀ domain ∈ a.domain, domain = []
  secure_rule : js "__Secure-" <+: name → a.isSecure = true

theorem validatePathOrDomain_eq_ok {scope kind value : JsString} :
    validatePathOrDomain scope kind value = .ok () ↔ value.any isInvalidUnit = false := by
  unfold validatePathOrDomain
  split
  · rename_i h
    simp [refuse, h]
  · rename_i h
    simp [h]

theorem validate_domain_eq_ok {scope kind : JsString} {domain : Option JsString} :
    domain.toList.forM (validatePathOrDomain scope kind) = .ok () ↔
      ∀ d ∈ domain, d.any isInvalidUnit = false := by
  cases domain with
  | none => simp [pure, Except.pure]
  | some d =>
    rw [Option.toList_some, List.forM_eq_forM, List.forM_cons, List.forM_nil, bind_eq_ok]
    constructor
    · rintro ⟨⟨⟩, h, -⟩ d' hd'
      rw [← Option.mem_some_iff.mp hd']
      exact validatePathOrDomain_eq_ok.mp h
    · intro h
      exact ⟨⟨⟩, validatePathOrDomain_eq_ok.mpr (h d rfl), rfl⟩

theorem assert_eq_ok {scope name : JsString} {a : CookieAttributes} {isProduction : Bool} :
    assertCookieAttributes scope name a isProduction = .ok () ↔ Accepted name a := by
  unfold assertCookieAttributes refuse
  simp only [guard_eq_ok, bind_eq_ok]
  constructor
  · rintro ⟨hname, hsite, hslash, ⟨⟩, hpath, hempty, ⟨⟩, hdomain, hage, hnone, hpart, hhost, h⟩
    refine ⟨not_not.mp hname, ?_, not_not.mp hslash, validatePathOrDomain_eq_ok.mp hpath, hempty,
      validate_domain_eq_ok.mp hdomain, ?_, not_and_not_right.mp hnone, not_and_not_right.mp hpart,
      ?_, ?_⟩
    · by_contra hunknown
      simp only [not_or] at hunknown
      exact hsite hunknown
    · intro n hn
      rw [Option.mem_def.mp hn] at hage
      simpa using hage
    · intro hpre
      have hall := fun h => hhost ⟨hpre, h⟩
      simp only [not_or, not_not, imp_false, ne_eq] at hall
      refine ⟨hall.1, hall.2.1, ?_⟩
      intro domain hd
      have hany := hall.2.2
      rw [Option.mem_def.mp hd] at hany
      simpa using hany
    · intro hpre
      by_contra hsecure
      rw [if_pos ⟨hpre, hsecure⟩] at h
      exact absurd h (by simp)
  · intro h
    refine ⟨not_not.mpr h.name_token, ?_, not_not.mpr h.path_slash, ⟨⟩,
      validatePathOrDomain_eq_ok.mpr h.path_clean, h.domain_ne_nil, ⟨⟩,
      validate_domain_eq_ok.mpr h.domain_clean, ?_, not_and_not_right.mpr h.secure_of_none,
      not_and_not_right.mpr h.secure_of_partitioned, ?_, ?_⟩
    · rintro ⟨hstrict, hlax, hnone⟩
      obtain hsite | hsite | hsite := h.sameSite_known
      · exact hstrict hsite
      · exact hlax hsite
      · exact hnone hsite
    · cases hage : a.maxAgeSeconds with
      | none => simp
      | some n => simpa using h.maxAge_natural n hage
    · rintro ⟨hpre, hor⟩
      obtain ⟨hsecure, hpath, hdomain⟩ := h.host_rule hpre
      obtain hinsecure | hother | hany := hor
      · exact hinsecure hsecure
      · exact hother hpath
      · rw [Option.any_eq_true] at hany
        obtain ⟨d, hd, hne⟩ := hany
        exact of_decide_eq_true hne (hdomain d hd)
    · rw [if_neg (not_and_not_right.mpr h.secure_rule)]
      rfl

/-! ## Units -/

theorem ascii_unit {p : UInt16 → Prop} (hall : ∀ k : Fin 0x80, p (UInt16.ofNat k.val)) {u : UInt16}
    (h : u.toNat < 0x80) : p u := by
  have hu := hall ⟨u.toNat, h⟩
  rwa [UInt16.ofNat_toNat] at hu

theorem token_unit {u : UInt16} (h : isTokenUnit u = true) :
    isWhitespace u = false ∧ u ≠ equalsSign ∧ isInvalidUnit u = false := by
  have hlt : u.toNat < 0x80 := by
    simp only [isTokenUnit, Bool.or_eq_true, Bool.and_eq_true, decide_eq_true_eq, beq_iff_eq] at h
    obtain (((h | h) | h) | h) | rfl := h
    · omega
    · omega
    · omega
    · have hmarks : ∀ v ∈ js "!#$%&'*+-.^_|~", v.toNat < 0x80 := by decide
      exact hmarks u h
    · decide
  exact @ascii_unit (fun v => isTokenUnit v = true →
    isWhitespace v = false ∧ v ≠ equalsSign ∧ isInvalidUnit v = false) (by decide) u hlt h

theorem encoded_unit {value : JsString} {u : UInt16} (h : u ∈ encodeWith keptInComponent value) :
    isWhitespace u = false ∧ isInvalidUnit u = false := by
  have hlt {v : UInt16} (hkept : keptInPath v = true) : v.toNat < 0x80 := by
    simp only [keptInPath, Bool.and_eq_true, decide_eq_true_eq] at hkept
    omega
  obtain ⟨-, hkept⟩ | hescape := mem_encodeWith h
  · exact @ascii_unit (fun v => keptInComponent v = true →
      isWhitespace v = false ∧ isInvalidUnit v = false)
      (by simp only [keptInComponent, componentMarks]; decide) u
      (hlt (keptInComponent_kept hkept).1) hkept
  · exact @ascii_unit (fun v => isEscapeUnit v = true →
      isWhitespace v = false ∧ isInvalidUnit v = false) (by decide) u
      (hlt (escapeUnit_kept hescape).1) hescape

theorem number_unit {u : UInt16} (h : isNumberUnit u = true) : isInvalidUnit u = false := by
  have hlt : u.toNat < 0x80 := by
    simp only [isNumberUnit, isDigit, Bool.or_eq_true, Bool.and_eq_true, decide_eq_true_eq,
      beq_iff_eq] at h
    obtain ((((h | rfl) | rfl) | rfl) | rfl) | rfl := h
    · omega
    all_goals decide
  exact @ascii_unit (fun v => isNumberUnit v = true → isInvalidUnit v = false) (by decide) u hlt h

theorem not_mem_of_clean {s : JsString} (h : ∀ u ∈ s, isInvalidUnit u = false) : semicolon ∉ s :=
  fun hmem => absurd (h _ hmem) (by decide)

/-! ## The text of a cookie -/

def attributeText : JsString × Option JsString → JsString
  | (name, some value) => name ++ equalsSign :: value
  | (name, none) => name

def separated (field : JsString × Option JsString) : JsString := js "; " ++ attributeText field

theorem attributesText_eq {name : JsString} {a : CookieAttributes} (h : Accepted name a) :
    attributesText a = a.requested.flatMap separated := by
  have hsecure : (if a.isSecure then js "; Secure" else []) =
      (if a.secure = some false then [] else [(js "Secure", none)]).flatMap separated := by
    unfold CookieAttributes.isSecure
    obtain h | _ | _ := a.secure
    · rfl
    · rfl
    · rfl
  have hhttp : (if a.isHttpOnly then js "; HttpOnly" else []) =
      (if a.httpOnly = some false then [] else [(js "HttpOnly", none)]).flatMap separated := by
    unfold CookieAttributes.isHttpOnly
    obtain h | _ | _ := a.httpOnly
    · rfl
    · rfl
    · rfl
  have hpartitioned : (if a.partitioned.getD false then js "; Partitioned" else []) =
      (if a.partitioned = some true then [(js "Partitioned", none)] else []).flatMap
        separated := by
    obtain h | _ | _ := a.partitioned
    · rfl
    · rfl
    · rfl
  have hdomain : (a.domain.elim [] fun d => if d = [] then [] else js "; Domain=" ++ d) =
      (a.domain.toList.map fun d => (js "Domain", some d)).flatMap separated := by
    have hne := h.domain_ne_nil
    cases hd : a.domain with
    | none => rfl
    | some domain =>
      rw [hd] at hne
      rw [Option.elim_some, if_neg (by simpa using hne), Option.toList_some, List.map_cons,
        List.map_nil, List.flatMap_cons, List.flatMap_nil, List.append_nil]
      rfl
  have hage : (a.maxAgeSeconds.elim [] fun n =>
        if isPositive n then js "; Max-Age=" ++ n.jsonText else []) =
      ((a.maxAgeSeconds.toList.filter isPositive).map fun n =>
        (js "Max-Age", some n.jsonText)).flatMap separated := by
    cases a.maxAgeSeconds with
    | none => rfl
    | some n =>
      rw [Option.elim_some, Option.toList_some, List.filter_cons]
      split
      · rw [List.filter_nil, List.map_cons, List.map_nil, List.flatMap_cons, List.flatMap_nil,
          List.append_nil]
        rfl
      · rfl
  unfold attributesText CookieAttributes.requested
  rw [hsecure, hhttp, hpartitioned, hdomain, hage]
  simp only [List.flatMap_append, List.flatMap_cons, List.flatMap_nil, List.append_nil,
    List.append_assoc]
  rfl

/-- An attribute that reads back from its text. -/
structure Readable (field : JsString × Option JsString) : Prop where
  no_equals : equalsSign ∉ field.1
  no_space : field.1.head? ≠ some space
  clean : ∀ u ∈ attributeText field, isInvalidUnit u = false

theorem Readable.of_name {name : JsString} {value : Option JsString}
    (hname : name ∈ [js "Path", js "SameSite", js "Secure", js "HttpOnly", js "Domain",
      js "Max-Age", js "Partitioned"])
    (hvalue : ∀ v ∈ value, ∀ u ∈ v, isInvalidUnit u = false) : Readable (name, value) := by
  have hnames : ∀ n ∈ [js "Path", js "SameSite", js "Secure", js "HttpOnly", js "Domain",
      js "Max-Age", js "Partitioned"],
      equalsSign ∉ n ∧ n.head? ≠ some space ∧ n.any isInvalidUnit = false := by
    decide
  obtain ⟨hequals, hspace, hclean⟩ := hnames name hname
  rw [List.any_eq_false] at hclean
  refine ⟨hequals, hspace, ?_⟩
  intro u hu
  cases value with
  | none => simpa using hclean u hu
  | some v =>
    obtain hu | hu := List.mem_append.mp hu
    · simpa using hclean u hu
    · obtain rfl | hu := List.mem_cons.mp hu
      · decide
      · exact hvalue v rfl u hu

theorem requested_readable {name : JsString} {a : CookieAttributes} (h : Accepted name a) :
    ∀ field ∈ a.requested, Readable field := by
  intro field hfield
  simp only [CookieAttributes.requested, List.mem_append, List.mem_cons, List.not_mem_nil,
    or_false, List.mem_ite_nil_left, List.mem_ite_nil_right, List.mem_map, Option.mem_toList,
    List.mem_filter] at hfield
  have hpath := h.path_clean
  rw [List.any_eq_false] at hpath
  obtain (((((rfl | rfl) | ⟨-, rfl⟩) | ⟨-, rfl⟩) | ⟨d, hd, rfl⟩) | ⟨n, ⟨hn, hpos⟩, rfl⟩) |
    ⟨-, rfl⟩ := hfield
  · refine .of_name (by decide) fun v hv u hu => ?_
    rw [← Option.mem_some_iff.mp hv] at hu
    simpa using hpath u hu
  · refine .of_name (by decide) fun v hv u hu => ?_
    rw [← Option.mem_some_iff.mp hv] at hu
    have hknown : ∀ s ∈ [js "Strict", js "Lax", js "None"], ∀ u ∈ s, isInvalidUnit u = false := by
      decide
    exact hknown _ (by simpa using h.sameSite_known) u hu
  · exact .of_name (by decide) (by simp)
  · exact .of_name (by decide) (by simp)
  · refine .of_name (by decide) fun v hv u hu => ?_
    rw [← Option.mem_some_iff.mp hv] at hu
    have hclean := h.domain_clean d hd
    rw [List.any_eq_false] at hclean
    simpa using hclean u hu
  · refine .of_name (by decide) fun v hv u hu => ?_
    rw [← Option.mem_some_iff.mp hv] at hu
    cases n with
    | nan => exact absurd hpos Bool.false_ne_true
    | infinity negative => exact absurd (h.maxAge_natural _ hn).1 Bool.false_ne_true
    | zero negative => exact absurd hpos Bool.false_ne_true
    | finite negative magnitude =>
      obtain rfl : negative = false := (h.maxAge_natural _ hn).2
      exact number_unit (magnitude.isNumberUnit_text u hu)
  · exact .of_name (by decide) (by simp)

theorem takeWhile_pair {name value : JsString} (h : equalsSign ∉ name) :
    (name ++ equalsSign :: value).takeWhile (· ≠ equalsSign) = name ∧
      (name ++ equalsSign :: value).dropWhile (· ≠ equalsSign) = equalsSign :: value := by
  have hall : ∀ u ∈ name, decide (u ≠ equalsSign) = true := by
    intro u hu
    rw [decide_eq_true_eq]
    rintro rfl
    exact h hu
  rw [List.takeWhile_append_of_pos hall, List.dropWhile_append_of_pos hall]
  simp

theorem readAttribute_text {field : JsString × Option JsString} (h : Readable field) :
    readAttribute ((space :: attributeText field).dropWhile (· = space)) = field := by
  obtain ⟨name, value⟩ := field
  have hequals : equalsSign ∉ name := h.no_equals
  have hdrop : (space :: attributeText (name, value)).dropWhile (· = space) =
      attributeText (name, value) := by
    have hspace := h.no_space
    rw [List.dropWhile_cons_of_pos (by simp)]
    cases name with
    | nil =>
      cases value with
      | none => rfl
      | some v => rfl
    | cons u name =>
      have hu : u ≠ space := by simpa using hspace
      cases value with
      | none => exact List.dropWhile_cons_of_neg (by simp [hu])
      | some v => exact List.dropWhile_cons_of_neg (by simp [hu])
  rw [hdrop, readAttribute]
  cases value with
  | none => exact if_neg hequals
  | some v =>
    rw [attributeText, if_pos (by simp), (takeWhile_pair hequals).1, (takeWhile_pair hequals).2]
    rfl

theorem splitOn_joined {first : JsString} {rest : List JsString} (hfirst : semicolon ∉ first)
    (hrest : ∀ part ∈ rest, semicolon ∉ part) :
    splitOn semicolon (first ++ rest.flatMap (js "; " ++ ·)) =
      first :: rest.map (space :: ·) := by
  unfold splitOn
  induction rest generalizing first with
  | nil =>
    rw [List.flatMap_nil, List.append_nil, List.splitOn_eq_singleton hfirst]
    rfl
  | cons part rest ih =>
    have htext : first ++ (part :: rest).flatMap (js "; " ++ ·) =
        first ++ semicolon :: ((space :: part) ++ rest.flatMap (js "; " ++ ·)) := by
      simp only [List.flatMap_cons, List.append_assoc]
      rfl
    have hpart : semicolon ∉ space :: part := by
      rw [List.mem_cons, not_or]
      exact ⟨by decide, hrest part List.mem_cons_self⟩
    rw [htext, List.splitOn_append_cons_self_of_not_mem hfirst,
      ih hpart (fun p hp => hrest p (List.mem_cons_of_mem _ hp))]
    rfl

theorem intercalate_cons (sep first : JsString) (rest : List JsString) :
    sep.intercalate (first :: rest) = first ++ rest.flatMap (sep ++ ·) := by
  induction rest generalizing first with
  | nil => simp
  | cons part rest ih =>
    simp only [List.intercalate_cons_cons, ih, List.flatMap_cons, List.append_assoc]

/-! ## Reading -/

theorem readParts_of_found (name : JsString) (parts : List JsString) (v : JsString) :
    readParts name parts (some v) =
      if (parts.filter (isNamed name)).isEmpty then some v else none := by
  induction parts with
  | nil => rfl
  | cons part parts ih =>
    rw [readParts, List.filter_cons]
    split
    · rfl
    · exact ih

theorem readParts_eq (name : JsString) (parts : List JsString) :
    readParts name parts none =
      if (parts.filter (isNamed name)).length = 1 then
        (parts.filter (isNamed name)).head?.map partValue
      else none := by
  induction parts with
  | nil => rfl
  | cons part parts ih =>
    rw [readParts, List.filter_cons]
    split
    · rw [Option.isSome_none, if_neg Bool.false_ne_true, readParts_of_found]
      simp
    · exact ih

theorem readRequestCookie_some (header name : JsString) :
    readRequestCookie (some header) name = readParts name (splitOn semicolon header) none := by
  rw [readRequestCookie]
  split
  · rename_i h
    rw [h]
    rfl
  · rfl

structure Cookie where
  name : JsString
  value : JsString
  attributes : CookieAttributes := {}

def Cookie.pair (c : Cookie) : JsString :=
  c.name ++ equalsSign :: encodeWith keptInComponent c.value

theorem Cookie.pair_clean {c : Cookie} (h : IsToken c.name) :
    ∀ u ∈ c.pair, isInvalidUnit u = false := by
  intro u hu
  obtain hu | hu := List.mem_append.mp hu
  · exact (token_unit (h.2 u hu)).2.2
  · obtain rfl | hu := List.mem_cons.mp hu
    · decide
    · exact (encoded_unit hu).2

theorem Cookie.part_reads {c : Cookie} (hname : IsToken c.name) (hvalue : WellFormed c.value)
    {pad : JsString} (hpad : pad = [] ∨ pad = [space]) :
    equalsSign ∈ pad ++ c.pair ∧ partName (pad ++ c.pair) = c.name ∧
      partValue (pad ++ c.pair) = c.value := by
  have hequals : equalsSign ∉ pad ++ c.name := by
    rw [List.mem_append, not_or]
    refine ⟨?_, fun hmem => (token_unit (hname.2 _ hmem)).2.1 rfl⟩
    obtain rfl | rfl := hpad
    · exact List.not_mem_nil
    · decide
  have htrim : trim (pad ++ c.name) = c.name := by
    have hself := trim_of_no_blank fun u hu => (token_unit (hname.2 u hu)).1
    obtain rfl | rfl := hpad
    · exact hself
    · rw [trim, List.singleton_append, List.dropWhile_cons_of_pos (by decide)]
      exact hself
  have hpart : pad ++ c.pair =
      (pad ++ c.name) ++ equalsSign :: encodeWith keptInComponent c.value := by
    rw [Cookie.pair, List.append_assoc]
  obtain ⟨htake, hdrop⟩ := @takeWhile_pair _ (encodeWith keptInComponent c.value) hequals
  refine ⟨by simp [hpart], by rw [partName, hpart, htake, htrim], ?_⟩
  unfold partValue
  rw [hpart, hdrop, List.tail_cons, trim_of_no_blank fun u hu => (encoded_unit hu).1]
  show (decodeURIComponent (encodeWith keptInComponent c.value)).getD _ = c.value
  rw [decode_encode hvalue]
  rfl

/-- What `serializeCookie` writes. -/
def Cookie.text (c : Cookie) : JsString := c.pair ++ c.attributes.requested.flatMap separated

theorem serialized {c : Cookie} {text : JsString} :
    serializeCookie c.name c.value c.attributes = .ok text ↔
      Accepted c.name c.attributes ∧ WellFormed c.value ∧ text = c.text := by
  unfold serializeCookie encodeURIComponent
  rw [bind_eq_ok]
  constructor
  · rintro ⟨⟨⟩, hassert, h⟩
    have haccepted := assert_eq_ok.mp hassert
    by_cases hvalue : WellFormed c.value
    · rw [if_pos hvalue] at h
      refine ⟨haccepted, hvalue, ?_⟩
      rw [Cookie.text, ← attributesText_eq haccepted]
      exact (Except.ok.inj h).symm
    · rw [if_neg hvalue] at h
      exact absurd h (by simp)
  · rintro ⟨haccepted, hvalue, rfl⟩
    refine ⟨⟨⟩, assert_eq_ok.mpr haccepted, ?_⟩
    rw [if_pos hvalue, Cookie.text, ← attributesText_eq haccepted]
    rfl

theorem requested_clean {name : JsString} {a : CookieAttributes} (h : Accepted name a) :
    ∀ text ∈ a.requested.map attributeText, semicolon ∉ text := by
  intro text htext
  obtain ⟨field, hfield, rfl⟩ := List.mem_map.mp htext
  exact not_mem_of_clean (requested_readable h field hfield).clean

theorem attributesOf_text {c : Cookie} (h : Accepted c.name c.attributes) :
    attributesOf c.text = c.attributes.requested := by
  have htext : c.text =
      c.pair ++ (c.attributes.requested.map attributeText).flatMap (js "; " ++ ·) := by
    rw [Cookie.text, List.flatMap_map]
    rfl
  rw [attributesOf, htext, splitOn_joined (not_mem_of_clean (Cookie.pair_clean h.name_token))
    (requested_clean h), List.tail_cons, List.map_map, List.map_map]
  have hfields : ∀ field ∈ c.attributes.requested, (((fun piece =>
      readAttribute (piece.dropWhile (· = space))) ∘ (space :: ·)) ∘ attributeText) field =
        field := fun field hfield => readAttribute_text (requested_readable h field hfield)
  rw [List.map_congr_left hfields, List.map_id']

theorem text_clean {c : Cookie} (h : Accepted c.name c.attributes) :
    ∀ u ∈ c.text, u ≠ 0x0D ∧ u ≠ lineFeed ∧ u ≠ 0x00 := by
  have hunit {u : UInt16} (hu : isInvalidUnit u = false) :
      u ≠ 0x0D ∧ u ≠ lineFeed ∧ u ≠ 0x00 := by
    simp only [isInvalidUnit, decide_eq_false_iff_not, List.mem_cons, not_or] at hu
    exact ⟨hu.2.1, hu.2.2.1, hu.2.2.2.1⟩
  intro u hu
  obtain hu | hu := List.mem_append.mp hu
  · exact hunit (Cookie.pair_clean h.name_token u hu)
  · obtain ⟨field, hfield, hu⟩ := List.mem_flatMap.mp hu
    obtain hu | hu := List.mem_append.mp hu
    · have hsep : ∀ v ∈ js "; ", v ≠ 0x0D ∧ v ≠ lineFeed ∧ v ≠ 0x00 := by decide
      exact hsep u hu
    · exact hunit ((requested_readable h field hfield).clean u hu)

theorem pairOf_text {c : Cookie} (h : Accepted c.name c.attributes) : pairOf c.text = c.pair := by
  have hpair := not_mem_of_clean (Cookie.pair_clean h.name_token)
  have hall : ∀ u ∈ c.pair, decide (u ≠ semicolon) = true := by
    intro u hu
    rw [decide_eq_true_eq]
    rintro rfl
    exact hpair hu
  have hpath : c.attributes.requested.flatMap separated =
      semicolon :: (c.attributes.requested.flatMap separated).tail := rfl
  rw [pairOf, Cookie.text, List.takeWhile_append_of_pos hall, hpath,
    List.takeWhile_cons_of_neg (by simp), List.append_nil]

/-! ## The header -/

theorem mapM_serialize {cookies : List Cookie}
    (h : ∀ c ∈ cookies, Accepted c.name c.attributes ∧ WellFormed c.value) :
    cookies.mapM (fun c => serializeCookie c.name c.value c.attributes) =
      .ok (cookies.map Cookie.text) := by
  induction cookies with
  | nil => rfl
  | cons c cookies ih =>
    obtain ⟨haccepted, hvalue⟩ := h c List.mem_cons_self
    exact mapM_cons_eq_ok.mpr ⟨c.text, cookies.map Cookie.text,
      serialized.mpr ⟨haccepted, hvalue, rfl⟩,
      ih fun c' hc' => h c' (List.mem_cons_of_mem _ hc'), rfl⟩

theorem filter_named {parts : List JsString} (hnames : (parts.map partName).Nodup)
    (hequals : ∀ part ∈ parts, equalsSign ∈ part) {part : JsString} (h : part ∈ parts) :
    parts.filter (isNamed (partName part)) = [part] := by
  have hnamed (other : JsString) (hother : equalsSign ∈ other) :
      isNamed (partName part) other = decide (partName other = partName part) := by
    simp [isNamed, hother]
  induction parts with
  | nil => exact absurd h List.not_mem_nil
  | cons first parts ih =>
    rw [List.map_cons, List.nodup_cons] at hnames
    have hrest : ∀ p ∈ parts, equalsSign ∈ p := fun p hp => hequals p (List.mem_cons_of_mem _ hp)
    rw [List.filter_cons, hnamed first (hequals first List.mem_cons_self)]
    obtain rfl | hmem := List.mem_cons.mp h
    · rw [if_pos (by simp), List.filter_eq_nil_iff.mpr]
      intro other hother
      rw [hnamed other (hrest other hother), decide_eq_true_eq]
      intro hsame
      exact hnames.1 (List.mem_map.mpr ⟨other, hother, hsame⟩)
    · have hne : partName first ≠ partName part := by
        intro hsame
        exact hnames.1 (List.mem_map.mpr ⟨part, hmem, hsame.symm⟩)
      rw [if_neg (by simp [hne])]
      exact ih hnames.2 hrest hmem

theorem read_pairs {cookies : List Cookie} (hnames : (cookies.map Cookie.name).Nodup)
    (h : ∀ c ∈ cookies, IsToken c.name ∧ WellFormed c.value) {c : Cookie} (hc : c ∈ cookies) :
    readRequestCookie (some ((js "; ").intercalate (cookies.map Cookie.pair))) c.name =
      some c.value := by
  cases cookies with
  | nil => exact absurd hc List.not_mem_nil
  | cons first rest =>
    have hclean : ∀ c' ∈ first :: rest, semicolon ∉ c'.pair :=
      fun c' hc' => not_mem_of_clean (Cookie.pair_clean (h c' hc').1)
    have hreads : ∀ c' ∈ first :: rest, ∀ pad : JsString, pad = [] ∨ pad = [space] →
        equalsSign ∈ pad ++ c'.pair ∧ partName (pad ++ c'.pair) = c'.name ∧
          partValue (pad ++ c'.pair) = c'.value :=
      fun c' hc' pad hpad => Cookie.part_reads (h c' hc').1 (h c' hc').2 hpad
    rw [readRequestCookie_some, List.map_cons, intercalate_cons,
      splitOn_joined (hclean first List.mem_cons_self), List.map_map]
    · have hparts : (first.pair :: rest.map ((space :: ·) ∘ Cookie.pair)).map partName =
          (first :: rest).map Cookie.name := by
        have hfirst : partName first.pair = first.name :=
          (hreads first List.mem_cons_self [] (.inl rfl)).2.1
        have hrest : ∀ c' ∈ rest, (partName ∘ (space :: ·) ∘ Cookie.pair) c' = c'.name :=
          fun c' hc' => (hreads c' (List.mem_cons_of_mem _ hc') [space] (.inr rfl)).2.1
        rw [List.map_cons, List.map_cons, List.map_map, hfirst, List.map_congr_left hrest]
      have hequals : ∀ part ∈ first.pair :: rest.map ((space :: ·) ∘ Cookie.pair),
          equalsSign ∈ part := by
        intro part hpart
        obtain rfl | hpart := List.mem_cons.mp hpart
        · exact (hreads first List.mem_cons_self [] (.inl rfl)).1
        · obtain ⟨c', hc', rfl⟩ := List.mem_map.mp hpart
          exact (hreads c' (List.mem_cons_of_mem _ hc') [space] (.inr rfl)).1
      have hown : ∃ pad : JsString, (pad = [] ∨ pad = [space]) ∧
          pad ++ c.pair ∈ first.pair :: rest.map ((space :: ·) ∘ Cookie.pair) := by
        obtain rfl | hmem := List.mem_cons.mp hc
        · exact ⟨[], .inl rfl, List.mem_cons_self⟩
        · exact ⟨[space], .inr rfl,
            List.mem_cons_of_mem _ (List.mem_map.mpr ⟨c, hmem, rfl⟩)⟩
      obtain ⟨pad, hpad, hmem⟩ := hown
      obtain ⟨-, hname, hvalue⟩ := hreads c hc pad hpad
      have hfilter := filter_named (by rwa [hparts]) hequals hmem
      rw [hname] at hfilter
      rw [readParts_eq, hfilter, List.length_singleton, if_pos rfl, List.head?_cons,
        Option.map_some, hvalue]
    · intro part hpart
      obtain ⟨c', hc', rfl⟩ := List.mem_map.mp hpart
      exact hclean c' (List.mem_cons_of_mem _ hc')

/-- Cookies with distinct names and attributes that are accepted are read back from the header of
their pairs, a name that occurs twice is not read, and a text has the attributes that were
requested, without CR, LF and NUL. -/
theorem cookies_round_trip :
    (∀ cookies : List Cookie, (cookies.map Cookie.name).Nodup →
      (∀ c ∈ cookies, WellFormed c.value ∧ ∃ scope isProduction,
        assertCookieAttributes scope c.name c.attributes isProduction = .ok ()) →
      ∃ texts, cookies.mapM (fun c => serializeCookie c.name c.value c.attributes) = .ok texts ∧
        ∀ c ∈ cookies, readRequestCookie (some (cookieHeader texts)) c.name = some c.value) ∧
    (∀ header name, 2 ≤ ((splitOn semicolon header).filter (isNamed name)).length →
      readRequestCookie (some header) name = none) ∧
    ∀ name value attributes text, serializeCookie name value attributes = .ok text →
      (∀ u ∈ text, u ≠ 0x0D ∧ u ≠ lineFeed ∧ u ≠ 0x00) ∧
        attributesOf text = attributes.requested := by
  refine ⟨?_, ?_, ?_⟩
  · intro cookies hnames hcookies
    have haccepted : ∀ c ∈ cookies, Accepted c.name c.attributes ∧ WellFormed c.value := by
      intro c hc
      obtain ⟨hvalue, scope, isProduction, hassert⟩ := hcookies c hc
      exact ⟨assert_eq_ok.mp hassert, hvalue⟩
    have hpairs : (cookies.map Cookie.text).map pairOf = cookies.map Cookie.pair := by
      rw [List.map_map]
      exact List.map_congr_left fun c hc => pairOf_text (haccepted c hc).1
    refine ⟨cookies.map Cookie.text, mapM_serialize haccepted, ?_⟩
    intro c hc
    rw [cookieHeader, hpairs]
    exact read_pairs hnames (fun c' hc' => ⟨(haccepted c' hc').1.name_token, (haccepted c' hc').2⟩)
      hc
  · intro header name htwo
    rw [readRequestCookie_some, readParts_eq, if_neg (by omega)]
  · intro name value attributes text htext
    obtain ⟨haccepted, -, rfl⟩ := (@serialized ⟨name, value, attributes⟩ text).mp htext
    exact ⟨text_clean haccepted, attributesOf_text haccepted⟩

end Daloy.Http.Cookies
