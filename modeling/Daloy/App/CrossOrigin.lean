import Daloy.Foundations.UrlHosts

/-! # The cross-origin guard

`getOriginFast` and `assertCrossOriginAllowed` of `src/app.ts`, against the origins of the URL
standard.

* `newUrlOrigin`: the origin of a text as a URL. `Agrees`: the fast path says nothing or the same.
* `FastShape`: the texts that the fast path answers on, and what it answers.
* `Settled`: the texts whose host is written as it is parsed.
-/

namespace Daloy.App.CrossOrigin
set_option autoImplicit false

open Daloy.Json Daloy.Text Daloy.Unicode Daloy.UrlStandard

/-! ## The fast path -/

def endsFast (u : UInt16) : Bool := u = solidus || u = questionMark || u = numberSign

def isUnusual (u : UInt16) : Bool :=
  (0x41 ≤ u.toNat && u.toNat ≤ 0x5A) || u = atSign || u = percentSign || u = leftBracket ||
    u = reverseSolidus || u.toNat ≤ 0x20 || 0x7F ≤ u.toNat

def isFastPort (defaultPort port : JsString) : Bool :=
  port ≠ [] && colonSign ∉ port && port ≠ defaultPort && port.all isDigit &&
    !(1 < port.length && port.head? = some 0x30) &&
    !(5 < port.length || (port.length = 5 && 65535 < decimal port))

def fastBehind (front defaultPort rest : JsString) : Option JsString :=
  let authority := rest.takeWhile fun u => !endsFast u
  if authority = [] then none
  else if authority.any isUnusual then none
  else match authority.dropWhile (· ≠ colonSign) with
    | [] => some (front ++ authority)
    | _ :: port => if isFastPort defaultPort port then some (front ++ authority) else none

def getOriginFast (url : JsString) : Option JsString :=
  if js "http://" <+: url then fastBehind (js "http://") (js "80") (url.drop 7)
  else if js "https://" <+: url then fastBehind (js "https://") (js "443") (url.drop 8)
  else none

/-! ## The guard -/

/-- What is not spelled out of `new URL(s).origin`: the texts of other schemes. -/
class OriginProcessing extends HostProcessing where
  otherOrigin : JsString → Option JsString

section Guard

variable [OriginProcessing]

/-- `new URL(s).origin`, `none` where the constructor throws. -/
def newUrlOrigin (s : JsString) : Option JsString :=
  match splitScheme (clean s) with
  | some (protocol, rest) => (parseBehind protocol rest).map Url.originText
  | none => OriginProcessing.otherOrigin s

/-- The URL of the request: its text, or an object with an origin. -/
inductive RequestUrl
  | text (s : JsString)
  | object (origin : JsString)

inductive GuardError
  | opaqueOrigin
  | crossOrigin (method origin : JsString)
  | malformedOrigin
  /-- What `new URL(requestUrl)` throws. -/
  | invalidRequestUrl
  deriving DecidableEq

def stateChangingMethods : List JsString := [js "POST", js "PUT", js "PATCH", js "DELETE"]

def compareOrigins (allowed : Bool) (method headerOrigin requestOrigin : JsString) :
    Except GuardError Unit :=
  if headerOrigin = requestOrigin ∨ allowed = true then .ok ()
  else .error (.crossOrigin method headerOrigin)

def compareExactly (allowed : Bool) (method origin : JsString) (requestUrl : RequestUrl) :
    Except GuardError Unit :=
  match newUrlOrigin origin with
  | none => .error .malformedOrigin
  | some headerOrigin =>
    match requestUrl with
    | .object requestOrigin => compareOrigins allowed method headerOrigin requestOrigin
    | .text s =>
      match newUrlOrigin s with
      | none => .error .invalidRequestUrl
      | some requestOrigin => compareOrigins allowed method headerOrigin requestOrigin

def RequestUrl.fastOrigin : RequestUrl → Option JsString
  | .text s => getOriginFast s
  | .object origin => some origin

structure GuardOptions where
  secureDefaults : Option Bool := none
  corsCrossOriginGuard : Option Bool := none

/-- The comparison of the guard: on the fast path, where both origins are on it. -/
def compareFast (allowed : Bool) (method origin : JsString) (requestUrl : RequestUrl) :
    Except GuardError Unit :=
  match getOriginFast origin, requestUrl.fastOrigin with
  | some headerOrigin, some requestOrigin =>
    compareOrigins allowed method headerOrigin requestOrigin
  | _, _ => compareExactly allowed method origin requestUrl

/-- The guard in front of a comparison. `corsOriginAllows` are the policies, on this request. -/
def guardWith (compare : Bool → JsString → Except GuardError Unit) (options : GuardOptions)
    (originHeader : Option JsString) (method : JsString)
    (corsOriginAllows : List (JsString → Bool)) : Except GuardError Unit :=
  if options.secureDefaults = some false ∨ options.corsCrossOriginGuard = some false ∨
      method ∉ stateChangingMethods then .ok ()
  else match originHeader with
    | none | some [] => .ok ()
    | some origin =>
      let allowed := corsOriginAllows.any fun allows => allows origin
      if origin = js "null" then if allowed then .ok () else .error .opaqueOrigin
      else compare allowed origin

def assertCrossOriginAllowed (options : GuardOptions) (originHeader : Option JsString)
    (requestUrl : RequestUrl) (method : JsString) (corsOriginAllows : List (JsString → Bool)) :
    Except GuardError Unit :=
  guardWith (fun allowed origin => compareFast allowed method origin requestUrl) options
    originHeader method corsOriginAllows

def assertExactly (options : GuardOptions) (originHeader : Option JsString)
    (requestUrl : RequestUrl) (method : JsString) (corsOriginAllows : List (JsString → Bool)) :
    Except GuardError Unit :=
  guardWith (fun allowed origin => compareExactly allowed method origin requestUrl) options
    originHeader method corsOriginAllows

def Agrees (s : JsString) : Prop :=
  getOriginFast s = none ∨ getOriginFast s = newUrlOrigin s

end Guard

/-! ## What the fast path answers on -/

def defaultPortText (protocol : JsString) : JsString :=
  if protocol = js "https:" then js "443" else js "80"

/-- A host in lower-case ASCII without escapes and brackets behind one of the two schemes, a port
that is written as a number and is not the one of the scheme, and a path, a query or a fragment. -/
structure FastShape (s protocol host port rest : JsString) : Prop where
  scheme : protocol = js "http:" ∨ protocol = js "https:"
  text : s = protocol ++ js "//" ++ (host ++ port ++ rest)
  units : ∀ u ∈ host, isUnusual u = false ∧ endsFast u = false ∧ u ≠ colonSign
  digits : port = [] ∨
    ∃ digits, port = colonSign :: digits ∧ isFastPort (defaultPortText protocol) digits = true
  nonempty : host ++ port ≠ []
  ending : ∀ u, rest.head? = some u → endsFast u = true

theorem digit_usual {u : UInt16} (h : isDigit u = true ∨ u = colonSign) :
    isUnusual u = false ∧ endsFast u = false := by
  have hlt : u.toNat < 0x40 := by
    obtain h | rfl := h
    · simp only [isDigit, Bool.and_eq_true, decide_eq_true_eq] at h
      omega
    · decide
  have hall : ∀ k : Fin 0x40,
      isDigit (UInt16.ofNat k.val) = true ∨ UInt16.ofNat k.val = colonSign →
        isUnusual (UInt16.ofNat k.val) = false ∧ endsFast (UInt16.ofNat k.val) = false := by
    decide
  have hu := hall ⟨u.toNat, hlt⟩
  rw [UInt16.ofNat_toNat] at hu
  exact hu h

theorem FastShape.authority {s protocol host port rest : JsString}
    (h : FastShape s protocol host port rest) :
    ∀ u ∈ host ++ port, isUnusual u = false ∧ endsFast u = false := by
  intro u hu
  obtain hu | hu := List.mem_append.mp hu
  · exact ⟨(h.units u hu).1, (h.units u hu).2.1⟩
  · obtain hnil | ⟨digits, hport, hfast⟩ := h.digits
    · rw [hnil] at hu
      cases hu
    · rw [hport] at hu
      obtain rfl | hu := List.mem_cons.mp hu
      · exact digit_usual (.inr rfl)
      · have hdigits : digits.all isDigit = true := by
          simp only [isFastPort, Bool.and_eq_true] at hfast
          exact hfast.1.1.2
        exact digit_usual (.inl (List.all_eq_true.mp hdigits u hu))

theorem fastBehind_shape {front defaultPort host port rest : JsString}
    (hunits : ∀ u ∈ host ++ port, isUnusual u = false ∧ endsFast u = false)
    (hcolon : colonSign ∉ host) (hne : host ++ port ≠ [])
    (hport : port = [] ∨
      ∃ digits, port = colonSign :: digits ∧ isFastPort defaultPort digits = true)
    (hrest : ∀ u, rest.head? = some u → endsFast u = true) :
    fastBehind front defaultPort (host ++ port ++ rest) = some (front ++ (host ++ port)) := by
  have htake : (host ++ port ++ rest).takeWhile (fun u => !endsFast u) = host ++ port := by
    refine (span_append (fun u hu => ?_) fun u hu => ?_).1
    · rw [(hunits u hu).2]
      rfl
    · rw [hrest u hu]
      rfl
  have hany : (host ++ port).any isUnusual = false := by
    rw [List.any_eq_false]
    intro u hu
    rw [(hunits u hu).1]
    exact Bool.false_ne_true
  have hdrop : (host ++ port).dropWhile (· ≠ colonSign) = port := by
    refine (span_append (fun u hu => ?_) fun u hu => ?_).2
    · have hcolon' : u ≠ colonSign := fun heq => hcolon (heq ▸ hu)
      simp [hcolon']
    · obtain rfl | ⟨digits, rfl, -⟩ := hport
      · cases hu
      · obtain rfl := Option.some.inj hu
        simp
  rw [fastBehind, htake, if_neg hne, hany, hdrop]
  obtain rfl | ⟨digits, rfl, hfast⟩ := hport
  · rfl
  · simp [hfast]

theorem fastBehind_eq_some {front defaultPort s o : JsString}
    (h : fastBehind front defaultPort s = some o) :
    ∃ host port rest, s = host ++ port ++ rest ∧ o = front ++ (host ++ port) ∧
      (∀ u ∈ host, isUnusual u = false ∧ endsFast u = false ∧ u ≠ colonSign) ∧
      (port = [] ∨ ∃ digits, port = colonSign :: digits ∧ isFastPort defaultPort digits = true) ∧
      host ++ port ≠ [] ∧ ∀ u, rest.head? = some u → endsFast u = true := by
  rw [fastBehind] at h
  split at h
  · cases h
  rename_i hne
  split at h
  · cases h
  rename_i hany
  have hsplit : (s.takeWhile fun u => !endsFast u).takeWhile (· ≠ colonSign) ++
      (s.takeWhile fun u => !endsFast u).dropWhile (· ≠ colonSign) =
        s.takeWhile fun u => !endsFast u := List.takeWhile_append_dropWhile
  have hunits : ∀ u ∈ s.takeWhile fun u => !endsFast u,
      isUnusual u = false ∧ endsFast u = false := by
    intro u hu
    simp only [Bool.not_eq_true, List.any_eq_false] at hany
    exact ⟨by simpa using hany u hu, by simpa using List.mem_takeWhile_imp hu⟩
  refine ⟨(s.takeWhile fun u => !endsFast u).takeWhile (· ≠ colonSign),
    (s.takeWhile fun u => !endsFast u).dropWhile (· ≠ colonSign),
    s.dropWhile fun u => !endsFast u, ?_, ?_, fun u hu => ?_, ?_, ?_, fun u hu => ?_⟩
  · rw [hsplit, List.takeWhile_append_dropWhile]
  · rw [hsplit]
    split at h
    · exact (Option.some.inj h).symm
    · split at h
      · exact (Option.some.inj h).symm
      · cases h
  · obtain ⟨hunusual, hends⟩ := hunits u ((List.takeWhile_prefix _).subset hu)
    exact ⟨hunusual, hends, by simpa using List.mem_takeWhile_imp hu⟩
  · split at h
    · rename_i hnil
      exact .inl hnil
    · rename_i u digits hcons
      split at h
      · rename_i hfast
        have hhead := List.head?_dropWhile_not (· ≠ colonSign) (s.takeWhile fun u => !endsFast u)
        rw [hcons] at hhead
        have hu : u = colonSign := by simpa using hhead
        exact .inr ⟨digits, by rw [hcons, hu], hfast⟩
      · cases h
  · rwa [hsplit]
  · have hhead := List.head?_dropWhile_not (fun u => !endsFast u) s
    rw [hu] at hhead
    simpa using hhead

theorem getOriginFast_eq_some {s o : JsString} : getOriginFast s = some o ↔
    ∃ protocol host port rest, FastShape s protocol host port rest ∧
      o = protocol ++ js "//" ++ (host ++ port) := by
  constructor
  · intro h
    unfold getOriginFast at h
    split at h
    · rename_i hprefix
      obtain ⟨t, rfl⟩ := hprefix
      obtain ⟨host, port, rest, hsplit, rfl, hunits, hport, hne, hrest⟩ := fastBehind_eq_some h
      have hbehind : t = host ++ port ++ rest := hsplit
      exact ⟨js "http:", host, port, rest,
        ⟨.inl rfl, by rw [hbehind]; rfl, hunits, hport, hne, hrest⟩, rfl⟩
    split at h
    · rename_i hprefix
      obtain ⟨t, rfl⟩ := hprefix
      obtain ⟨host, port, rest, hsplit, rfl, hunits, hport, hne, hrest⟩ := fastBehind_eq_some h
      have hbehind : t = host ++ port ++ rest := hsplit
      exact ⟨js "https:", host, port, rest,
        ⟨.inr rfl, by rw [hbehind]; rfl, hunits, hport, hne, hrest⟩, rfl⟩
    · cases h
  · intro h
    obtain ⟨protocol, host, port, rest, hshape, rfl⟩ := h
    have hcolon : colonSign ∉ host := fun hmem => (hshape.units _ hmem).2.2 rfl
    have hbehind := fun front => @fastBehind_shape front (defaultPortText protocol) host port rest
      hshape.authority hcolon hshape.nonempty hshape.digits hshape.ending
    have hs := hshape.text
    obtain rfl | rfl := hshape.scheme
    · have hprefix : js "http://" <+: s := ⟨host ++ port ++ rest, by rw [hs]; rfl⟩
      have hdrop : s.drop 7 = host ++ port ++ rest := by rw [hs]; rfl
      rw [getOriginFast, if_pos hprefix, hdrop]
      exact hbehind (js "http://")
    · have hnot : ¬ js "http://" <+: s := by
        intro hprefix
        have htake : s.take 7 = js "https:/" := by rw [hs]; rfl
        have hsame := List.prefix_iff_eq_take.mp hprefix
        have hlength : (js "http://").length = 7 := rfl
        rw [hlength, htake] at hsame
        exact absurd hsame (by decide)
      have hprefix : js "https://" <+: s := ⟨host ++ port ++ rest, by rw [hs]; rfl⟩
      have hdrop : s.drop 8 = host ++ port ++ rest := by rw [hs]; rfl
      rw [getOriginFast, if_neg hnot, if_pos hprefix, hdrop]
      exact hbehind (js "https://")

/-! ## What the URL parser makes of them -/

section Shapes

variable {s protocol host port rest : JsString}

theorem usual_units {u : UInt16} (h : isUnusual u = false ∧ endsFast u = false) :
    isControlOrSpace u = false ∧ endsAuthority u = false ∧ u ≠ atSign ∧ u ≠ leftBracket := by
  obtain ⟨hunusual, hends⟩ := h
  simp only [isUnusual, Bool.or_eq_false_iff, decide_eq_false_iff_not] at hunusual
  simp only [endsFast, Bool.or_eq_false_iff, decide_eq_false_iff_not] at hends
  obtain ⟨⟨⟨⟨⟨⟨-, hat⟩, -⟩, hbracket⟩, hslash⟩, hspace⟩, -⟩ := hunusual
  refine ⟨by simpa [isControlOrSpace] using hspace, ?_, hat, hbracket⟩
  simp [endsAuthority, isSlash, endsPath, hslash, hends.1.1, hends.1.2, hends.2]

theorem parsePort_fast {digits : JsString}
    (hscheme : protocol = js "http:" ∨ protocol = js "https:")
    (h : isFastPort (defaultPortText protocol) digits = true) :
    parsePort protocol digits = some digits := by
  simp only [isFastPort, Bool.and_eq_true, Bool.not_eq_true', Bool.or_eq_false_iff,
    Bool.and_eq_false_iff, decide_eq_true_eq, decide_eq_false_iff_not] at h
  obtain ⟨⟨⟨⟨⟨hne, -⟩, hdefault⟩, hdigits⟩, hlead⟩, hlong, hlarge⟩ := h
  have hbound : decimal digits ≤ 65535 := by
    have hlt := decimal_lt (List.all_eq_true.mp hdigits)
    obtain hshort | hsmall := hlarge
    · have hpow : 10 ^ digits.length ≤ 10 ^ 4 := Nat.pow_le_pow_right (by omega) (by omega)
      omega
    · omega
  have hwrite : (NumberText.write (decimal digits) : JsString) = digits := by
    refine write_decimal (List.all_eq_true.mp hdigits) (fun hzero => ?_) hne
    obtain ⟨u, rest, rfl⟩ := List.exists_cons_of_ne_nil hne
    obtain rfl := Option.some.inj hzero
    obtain hshort | hother := hlead
    · rw [List.length_cons] at hshort
      rw [List.eq_nil_of_length_eq_zero (by omega : rest.length = 0)]
    · exact absurd rfl hother
  have hother : decimal digits ≠ defaultPort protocol := by
    intro heq
    rw [heq] at hwrite
    obtain rfl | rfl := hscheme
    · exact hdefault (hwrite.symm.trans (by decide))
    · exact hdefault (hwrite.symm.trans (by decide))
  rw [parsePort, if_neg (by simp [hdigits]), if_neg hne, if_neg (by omega), if_neg hother, hwrite]

theorem hostText_eq (hunits : ∀ u ∈ host, u ≠ colonSign ∧ u ≠ leftBracket)
    (hport : ∀ u, port.head? = some u → u = colonSign) : hostText false (host ++ port) = host := by
  induction host with
  | nil =>
    cases port with
    | nil => rfl
    | cons u port => rw [List.nil_append, hostText, if_pos ⟨hport u rfl, rfl⟩]
  | cons u host ih =>
    obtain ⟨hcolon, hbracket⟩ := hunits u List.mem_cons_self
    have hrest := ih fun v hv => hunits v (List.mem_cons_of_mem _ hv)
    rw [List.cons_append, hostText, if_neg fun h => hcolon h.1, if_neg hbracket, ite_self, hrest]

variable [OriginProcessing]

theorem FastShape.authorityOf_eq (h : FastShape s protocol host port rest) :
    authorityOf protocol (host ++ port) =
      if host = [] then none
      else (parseHost host).map fun hostname => { hostname, port := port.drop 1 } := by
  have hunits (u : UInt16) (hu : u ∈ host ++ port) := usual_units (h.authority u hu)
  have hhost : hostText false (host ++ port) = host := by
    refine hostText_eq (fun u hu => ?_) fun u hu => ?_
    · exact ⟨(h.units u hu).2.2, (hunits u (List.mem_append_left _ hu)).2.2.2⟩
    · obtain hnil | ⟨digits, hcons, -⟩ := h.digits
      · rw [hnil] at hu
        cases hu
      · rw [hcons] at hu
        exact (Option.some.inj hu).symm
  have htake : (host ++ port).rtakeWhile (· ≠ atSign) = host ++ port := by
    rw [List.rtakeWhile_eq_self_iff]
    intro u hu
    simp [(hunits u hu).2.2.1]
  have hdrop : (host ++ port).rdropWhile (· ≠ atSign) = [] := by
    rw [List.rdropWhile_eq_nil_iff]
    intro u hu
    simp [(hunits u hu).2.2.1]
  have hport : parsePort protocol (port.drop 1) = some (port.drop 1) := by
    obtain hnil | ⟨digits, hcons, hfast⟩ := h.digits
    · rw [hnil]
      rfl
    · rw [hcons]
      exact parsePort_fast h.scheme hfast
  rw [authorityOf, htake, hdrop, hhost, List.drop_left, hport]
  split
  · rfl
  · cases parseHost host with
    | none => rfl
    | some hostname => rfl

theorem FastShape.newUrlOrigin_eq (h : FastShape s protocol host port rest) :
    newUrlOrigin s =
      if host = [] then none
      else (parseHost host).map fun hostname => protocol ++ js "//" ++ (hostname ++ port) := by
  have hunits (u : UInt16) (hu : u ∈ host ++ port) := usual_units (h.authority u hu)
  have hvisible : Visible (protocol ++ js "//" ++ (host ++ port)) := by
    intro u hu
    obtain hu | hu := List.mem_append.mp hu
    · have hall : ∀ protocol, protocol = js "http:" ∨ protocol = js "https:" →
          ∀ u ∈ protocol ++ js "//", isControlOrSpace u = false := by
        rintro protocol (rfl | rfl)
        · decide
        · decide
      exact hall protocol h.scheme u hu
    · exact (hunits u hu).1
  have hend : ∀ u, (cleanEnd rest).head? = some u → endsAuthority u = true := by
    cases hrest : rest with
    | nil => simp [cleanEnd]
    | cons v rest =>
      have hv : endsFast v = true := h.ending v (by rw [hrest]; rfl)
      simp only [endsFast, Bool.or_eq_true, decide_eq_true_eq] at hv
      have hboth : isControlOrSpace v = false ∧ endsAuthority v = true := by
        obtain (rfl | rfl) | rfl := hv
        · decide
        · decide
        · decide
      rw [cleanEnd_cons hboth.1]
      intro u hu
      rw [← Option.some.inj hu]
      exact hboth.2
  have hclean : clean s = protocol ++ js "//" ++ (host ++ port) ++ cleanEnd rest := by
    have hne : protocol ++ js "//" ++ (host ++ port) ≠ [] := by simp [h.nonempty]
    rw [← clean_append hvisible hne, h.text]
    simp only [List.append_assoc]
  have hscheme : splitScheme (clean s) =
      some (protocol, js "//" ++ (host ++ port ++ cleanEnd rest)) := by
    rw [hclean]
    rw [List.append_assoc]
    obtain rfl | rfl := h.scheme
    · exact splitScheme_origin (.inl rfl) (host ++ port ++ cleanEnd rest)
    · exact splitScheme_origin (.inr rfl) (host ++ port ++ cleanEnd rest)
  obtain ⟨htake, hdrop⟩ := @span_append _ (fun u => !endsAuthority u) (host ++ port)
    (fun u hu => by simp [(hunits u hu).2.1]) (cleanEnd rest) (fun u hu => by simp [hend u hu])
  have hslashes : (js "//" ++ (host ++ port ++ cleanEnd rest)).dropWhile isSlash =
      host ++ port ++ cleanEnd rest := by
    rw [List.dropWhile_append_of_pos (by decide)]
    obtain ⟨u, authority, hcons⟩ := List.exists_cons_of_ne_nil h.nonempty
    have hu := (hunits u (by rw [hcons]; exact List.mem_cons_self)).2.1
    rw [endsAuthority, Bool.or_eq_false_iff] at hu
    rw [hcons, List.cons_append, List.dropWhile_cons_of_neg (by simp [hu.1])]
  have hport : (if port.drop 1 = [] then [] else colonSign :: port.drop 1) = port := by
    obtain hnil | ⟨digits, hcons, hfast⟩ := h.digits
    · rw [hnil]
      rfl
    · have hne : digits ≠ [] := by
        simp only [isFastPort, Bool.and_eq_true, decide_eq_true_eq] at hfast
        exact hfast.1.1.1.1.1
      rw [hcons, List.drop_one, List.tail_cons, if_neg hne]
  rw [newUrlOrigin, hscheme]
  dsimp only
  rw [parseBehind, hslashes, htake, hdrop]
  have hauthority : UrlParser.parseAuthority protocol (host ++ port) = _ := h.authorityOf_eq
  rw [hauthority]
  split
  · rfl
  · cases parseHost host with
    | none => rfl
    | some hostname =>
      refine congrArg some ?_
      show protocol ++ js "//" ++ hostname ++ _ = _
      rw [hport, List.append_assoc]

/-! ## When the fast path agrees -/

/-- The host stays as it is: it is not empty, no unit of it is forbidden, it ends in a number only
as an address in four decimal numbers, and the mapping of domains to ASCII leaves it alone, which it
does without Punycode. -/
structure SettledHost (host : JsString) : Prop where
  nonempty : host ≠ []
  allowed : ∀ u ∈ host, isForbiddenDomainUnit u = false
  number : endsInNumber host = true → IsQuad host
  mapped : hasPunycode host = true → HostProcessing.asciiDomain host = some host

def Settled (s : JsString) : Prop :=
  ∀ protocol host port rest, FastShape s protocol host port rest → SettledHost host

theorem FastShape.settled_iff (h : FastShape s protocol host port rest) :
    SettledHost host ↔ host ≠ [] ∧ parseHost host = some host := by
  have hunits : ∀ u ∈ host, u.toNat < 0x80 ∧ u ≠ percentSign ∧ u ≠ leftBracket ∧
      ¬ (0x41 ≤ u.toNat ∧ u.toNat ≤ 0x5A) := by
    intro u hu
    have hunusual := (h.units u hu).1
    simp only [isUnusual, Bool.or_eq_false_iff, Bool.and_eq_false_iff, decide_eq_false_iff_not]
      at hunusual
    obtain ⟨⟨⟨⟨⟨⟨hupper, -⟩, hpercent⟩, hbracket⟩, -⟩, -⟩, hascii⟩ := hunusual
    exact ⟨by omega, hpercent, hbracket, by omega⟩
  have hhead : host.head? ≠ some leftBracket := fun heq =>
    (hunits _ (List.mem_of_mem_head? heq)).2.2.1 rfl
  rw [parseHost_eq_self hhead, parseDomain_eq_self]
  constructor
  · intro hsettled
    refine ⟨hsettled.nonempty, ?_, hsettled.nonempty, hsettled.allowed, hsettled.number⟩
    cases hpunycode : hasPunycode host with
    | true => exact hsettled.mapped hpunycode
    | false =>
      rw [HostProcessing.asciiDomain_ascii host (fun u hu => ⟨(hunits u hu).1, (hunits u hu).2.1⟩)
        hpunycode, lowerAscii_eq_self fun u hu => (hunits u hu).2.2.2]
  · intro hparsed
    obtain ⟨hne, hmapped, -, hallowed, hnumber⟩ := hparsed
    exact ⟨hne, hallowed, hnumber, fun _ => hmapped⟩

theorem agrees_iff (s : JsString) : Agrees s ↔ Settled s := by
  constructor
  · intro hagrees protocol host port rest hshape
    have hfast := getOriginFast_eq_some.mpr ⟨protocol, host, port, rest, hshape, rfl⟩
    rw [hshape.settled_iff]
    obtain hnone | hsame := hagrees
    · rw [hfast] at hnone
      cases hnone
    rw [hfast, hshape.newUrlOrigin_eq] at hsame
    split at hsame
    · cases hsame
    rename_i hne
    obtain ⟨hostname, hparse, htext⟩ := Option.map_eq_some_iff.mp hsame.symm
    have hhost := List.append_cancel_right (List.append_cancel_left htext)
    exact ⟨hne, hhost ▸ hparse⟩
  · intro hsettled
    cases hfast : getOriginFast s with
    | none => exact .inl hfast
    | some o =>
      right
      obtain ⟨protocol, host, port, rest, hshape, rfl⟩ := getOriginFast_eq_some.mp hfast
      obtain ⟨hne, hparse⟩ := hshape.settled_iff.mp (hsettled _ _ _ _ hshape)
      rw [hfast, hshape.newUrlOrigin_eq, if_neg hne, hparse]
      rfl

theorem compareFast_eq {allowed : Bool} {method origin : JsString} {requestUrl : RequestUrl}
    (hheader : Agrees origin) (hurl : ∀ url, requestUrl = .text url → Agrees url) :
    compareFast allowed method origin requestUrl =
      compareExactly allowed method origin requestUrl := by
  cases hfast : getOriginFast origin with
  | none => rw [compareFast, hfast]
  | some headerOrigin =>
    have hheaderOrigin : newUrlOrigin origin = some headerOrigin := by
      obtain hnone | hsame := hheader
      · rw [hfast] at hnone
        cases hnone
      · rw [← hsame, hfast]
    cases requestUrl with
    | object requestOrigin =>
      simp only [compareFast, hfast, RequestUrl.fastOrigin, compareExactly, hheaderOrigin]
    | text s =>
      cases hrequest : getOriginFast s with
      | none => simp only [compareFast, hfast, RequestUrl.fastOrigin, hrequest]
      | some requestOrigin =>
        have hrequestOrigin : newUrlOrigin s = some requestOrigin := by
          obtain hnone | hsame := hurl s rfl
          · rw [hrequest] at hnone
            cases hnone
          · rw [← hsame, hrequest]
        simp only [compareFast, hfast, RequestUrl.fastOrigin, hrequest, compareExactly,
          hheaderOrigin, hrequestOrigin]

theorem assert_eq_exactly {options : GuardOptions} {originHeader : Option JsString}
    {requestUrl : RequestUrl} {method : JsString} {corsOriginAllows : List (JsString → Bool)}
    (hheader : ∀ origin ∈ originHeader, Agrees origin)
    (hurl : ∀ url, requestUrl = .text url → Agrees url) :
    assertCrossOriginAllowed options originHeader requestUrl method corsOriginAllows =
      assertExactly options originHeader requestUrl method corsOriginAllows := by
  unfold assertCrossOriginAllowed assertExactly guardWith
  split
  · rfl
  split
  · rfl
  · rfl
  · rename_i origin hne
    dsimp only
    rw [compareFast_eq (hheader origin rfl) hurl]

/-- **The fast path agrees exactly on the settled texts**, and where the origins of a request are
settled, the guard does what it would do without it. -/
theorem fast_path_exact :
    (∀ s : JsString, Agrees s ↔ Settled s) ∧
      ∀ (options : GuardOptions) (originHeader : Option JsString) (requestUrl : RequestUrl)
        (method : JsString) (corsOriginAllows : List (JsString → Bool)),
        (∀ origin ∈ originHeader, Settled origin) →
        (∀ url, requestUrl = .text url → Settled url) →
        assertCrossOriginAllowed options originHeader requestUrl method corsOriginAllows =
          assertExactly options originHeader requestUrl method corsOriginAllows := by
  refine ⟨agrees_iff, fun options originHeader requestUrl method corsOriginAllows hheader hurl =>
    ?_⟩
  exact assert_eq_exactly (fun origin hmem => (agrees_iff origin).mpr (hheader origin hmem))
    fun url htext => (agrees_iff url).mpr (hurl url htext)

end Shapes

/-! ## An address that is written short -/

abbrev plainProcessing : OriginProcessing where
  asciiDomain s := some (lowerAscii s)
  parseIPv6 _ := none
  parseOther _ := none
  asciiDomain_ascii _ _ _ := rfl
  otherOrigin _ := none

theorem fast_path_exact_name :
    @assertCrossOriginAllowed plainProcessing {} (some (js "https://a.example"))
        (.text (js "https://a.example/b")) (js "POST") [] =
      @assertExactly plainProcessing {} (some (js "https://a.example"))
        (.text (js "https://a.example/b")) (js "POST") [] := by
  have hheader : @Settled plainProcessing (js "https://a.example") :=
    ((@fast_path_exact plainProcessing).1 _).mp (.inr (by decide +kernel))
  have hurl : @Settled plainProcessing (js "https://a.example/b") :=
    ((@fast_path_exact plainProcessing).1 _).mp (.inr (by decide +kernel))
  refine (@fast_path_exact plainProcessing).2 {} _ _ (js "POST") [] (fun origin hmem => ?_)
    fun url htext => ?_
  · exact Option.some.inj hmem ▸ hheader
  · exact RequestUrl.text.inj htext ▸ hurl

/-- `http://127.1` has the origin `http://127.0.0.1`, so the fast path is wrong about it, and the
guard rejects a request from its own origin. -/
theorem short_address_disagrees :
    ¬ @Agrees plainProcessing (js "http://127.1") ∧
      @newUrlOrigin plainProcessing (js "http://127.1") = some (js "http://127.0.0.1") ∧
      @assertCrossOriginAllowed plainProcessing {} (some (js "http://127.1"))
        (.text (js "http://127.0.0.1/a")) (js "POST") [] =
          .error (.crossOrigin (js "POST") (js "http://127.1")) ∧
      @assertExactly plainProcessing {} (some (js "http://127.1"))
        (.text (js "http://127.0.0.1/a")) (js "POST") [] = .ok () := by
  have horigin : @newUrlOrigin plainProcessing (js "http://127.1") =
      some (js "http://127.0.0.1") := by
    decide +kernel
  refine ⟨fun hagrees => ?_, horigin, by decide +kernel, by decide +kernel⟩
  obtain hnone | hsame := hagrees
  · exact absurd hnone (by decide)
  · exact absurd (hsame.trans horigin) (by decide)

end Daloy.App.CrossOrigin
