import Daloy.Foundations.Doubles
import Daloy.Foundations.JsonTexts
import Daloy.Security.JsonStructure

/-! # Signed pagination cursors

`createCursorCodec` of `src/pagination.ts`. The HMAC of the runtime is a parameter.

* `verify_iff`: a cursor has one body, and its signature is one under a configured secret.
* `payloadPart_iff`: what is read behind the signature, in both modes.
-/

namespace Daloy.Pagination
set_option autoImplicit false

open Daloy.Doubles Daloy.Json Daloy.Security Daloy.Text Daloy.Unicode

/-! ## The source -/

def maxCursorLength : ℕ := 4096

def cursorSigLength : ℕ := 43

def dot : UInt16 := 0x2E

/-- HMAC-SHA-256 with a key that was imported, as bytes. -/
structure Hmac where
  sign : List UInt8 → List UInt8 → List UInt8
  length_sign : ∀ key data, (sign key data).length = 32

inductive CursorError
  | error (message : JsString)
  | typeError (message : JsString)
  | badRequest (detail : JsString)
  deriving DecidableEq

inductive CursorSecret
  | one (secret : JsString)
  | many (secrets : List JsString)

structure CursorCodecOptions where
  secret : CursorSecret
  ttlSeconds : Option (Option ℚ) := none

def CursorSecret.secrets : CursorSecret → List JsString
  | .one secret => [secret]
  | .many secrets => secrets

/-- A codec; the first secret signs. -/
structure CursorCodec where
  signer : JsString
  others : List JsString
  ttl : Option ℚ
  long : ∀ s ∈ signer :: others, 16 ≤ s.length
  valid : ∀ t ∈ ttl, isSafeInteger (some t) = true ∧ 0 < t

def CursorCodec.secrets (codec : CursorCodec) : List JsString := codec.signer :: codec.others

def shortSecret : JsString :=
  js ("createCursorCodec(): each secret must be a string of at least 16 characters — it is the " ++
    "HMAC key that signs every cursor, so a short or guessable value lets a client forge the " ++
    "payload. Generate one with `openssl rand -base64 32` and load it from an env var.")

def checkTtl : Option (Option ℚ) →
    Except CursorError { ttl : Option ℚ // ∀ t ∈ ttl, isSafeInteger (some t) = true ∧ 0 < t }
  | none => .ok ⟨none, by simp⟩
  | some (some t) =>
    if h : isSafeInteger (some t) = true ∧ 0 < t then .ok ⟨some t, by simpa using h⟩
    else .error (.error
      (js "createCursorCodec(): ttlSeconds must be a positive integer when set."))
  | some none => .error (.error
      (js "createCursorCodec(): ttlSeconds must be a positive integer when set."))

def createCursorCodec (options : CursorCodecOptions) : Except CursorError CursorCodec :=
  match options.secret.secrets with
  | [] => .error (.error (js "createCursorCodec(): at least one secret is required."))
  | signer :: others =>
    if long : ∀ s ∈ signer :: others, 16 ≤ s.length then
      (checkTtl options.ttlSeconds).map fun ttl => ⟨signer, others, ttl.1, long, ttl.2⟩
    else .error (.error shortSecret)

def base64UrlEncode (input : JsString) : JsString := base64Url (encodeText input)

def base64UrlDecode (input : JsString) : Option JsString :=
  if input ≠ [] ∧ input.all isUrlUnit then
    (atob (fromUrlAlphabet input)).bind decodeText
  else none

def timingSafeEqual (a b : JsString) : Bool :=
  sameEverywhere (a.map UInt16.toNat) (b.map UInt16.toNat)

/-- `Math.floor(now() / 1000)`. -/
def seconds (now : ℚ) : ℤ := ⌊nearest (now / 1000)⌋

/-- `Math.floor(now() / 1000) + ttl`. -/
def expirySeconds (now ttl : ℚ) : ℤ := ⌊nearest (seconds now + ttl)⌋

def invalidCursor : CursorError := .badRequest (js "Invalid pagination cursor.")

def cutLast (s : JsString) : Option (JsString × JsString) :=
  if dot ∈ s then some ((s.rdropWhile (· ≠ dot)).dropLast, s.rtakeWhile (· ≠ dot)) else none

variable {ν : Type} [NumberText ν]

def stripForbiddenKeys (value : Value ν) : Value ν := strip value

namespace CursorCodec
variable (hmac : Hmac) (codec : CursorCodec)

def mac (secret data : JsString) : JsString :=
  base64Url (hmac.sign (encodeText secret) (encodeText data))

def body (now : ℚ) (json : JsString) : JsString :=
  codec.ttl.elim (base64UrlEncode json) fun ttl =>
    base64UrlEncode json ++ dot :: integerText (expirySeconds now ttl)

/-- `encode(payload)`; a payload that has no JSON text is `none`. -/
def encode (now : ℚ) (payload : Option (Json ν)) : Except CursorError JsString :=
  match payload with
  | none => .error (.typeError (js "createCursorCodec(): payload is not JSON-serializable."))
  | some payload =>
    let body := codec.body now (stringify payload.1)
    .ok (body ++ dot :: mac hmac codec.signer body)

def verify (cursor : JsString) : Option JsString :=
  if cursor.length = 0 ∨ maxCursorLength < cursor.length then none
  else (cutLast cursor).bind fun (body, sig) =>
    if body = [] ∨ sig.length ≠ cursorSigLength ∨ !sig.all isUrlUnit then none
    else if codec.secrets.any fun secret => timingSafeEqual (mac hmac secret body) sig then some body
    else none

def payloadPart (now : ℚ) (body : JsString) : Option JsString :=
  match codec.ttl with
  | none => if dot ∈ body then none else some body
  | some _ => (cutLast body).bind fun (payload, text) =>
    if payload = [] then none
    else (number text).bind fun exp =>
      if !isSafeInteger (some exp) ∨ exp < seconds now then none else some payload

def readPayload (payload : JsString) : Option (Option (Value ν)) :=
  (base64UrlDecode payload).bind fun json =>
    (safeJsonParseLimited json 1000 20).toOption

def decode (now : ℚ) (cursor : JsString) : Except CursorError (Option (Value ν)) :=
  match ((codec.verify hmac cursor).bind (codec.payloadPart now)).bind readPayload with
  | none => .error invalidCursor
  | some parsed => .ok (parsed.map stripForbiddenKeys)

end CursorCodec

/-! ## Dots -/

theorem cutLast_iff {s a b : JsString} : cutLast s = some (a, b) ↔ s = a ++ dot :: b ∧ dot ∉ b := by
  have happend {a b : JsString} (hb : dot ∉ b) :
      (a ++ dot :: b).rtakeWhile (· ≠ dot) = b ∧
        (a ++ dot :: b).rdropWhile (· ≠ dot) = a ++ [dot] := by
    have hall : ∀ u ∈ b.reverse, decide (u ≠ dot) = true := by
      intro u hu
      simpa using fun heq : u = dot => hb (heq ▸ List.mem_reverse.mp hu)
    have hreverse : (a ++ dot :: b).reverse = b.reverse ++ dot :: a.reverse := by simp
    constructor
    · rw [List.rtakeWhile, hreverse, List.takeWhile_append_of_pos hall]
      simp
    · rw [List.rdropWhile, hreverse, List.dropWhile_append_of_pos hall]
      simp
  constructor
  · intro h
    rw [cutLast] at h
    split at h
    · rename_i hmem
      obtain ⟨front, rest, hsplit, hrest⟩ := List.eq_append_cons_of_mem
        (List.mem_reverse.mpr hmem)
      have hs : s = rest.reverse ++ dot :: front.reverse := by
        rw [← List.reverse_reverse s, hsplit]
        simp
      have hfront : dot ∉ front.reverse := fun hm => hrest (List.mem_reverse.mp hm)
      obtain ⟨htake, hdrop⟩ := happend (a := rest.reverse) hfront
      rw [hs, htake, hdrop, List.dropLast_concat] at h
      obtain ⟨rfl, rfl⟩ := Prod.mk.inj (Option.some.inj h)
      exact ⟨hs, hfront⟩
    · cases h
  · rintro ⟨rfl, hb⟩
    obtain ⟨htake, hdrop⟩ := happend (a := a) hb
    rw [cutLast, if_pos (by simp), htake, hdrop, List.dropLast_concat]

theorem dot_notMem_base64Url (bytes : List UInt8) : dot ∉ base64Url bytes := by
  intro hmem
  have hunit := isUrlUnit_base64Url hmem
  revert hunit
  decide

theorem dot_notMem_integerText (n : ℤ) : dot ∉ integerText n := by
  have hdot : isDigit dot = false := by decide
  intro hmem
  cases n with
  | ofNat k => exact absurd (write_digits k dot hmem) (by simp [hdot])
  | negSucc k =>
    obtain hminus | hmem := List.mem_cons.mp hmem
    · exact absurd hminus (by decide)
    · exact absurd (write_digits (k + 1) dot hmem) (by simp [hdot])

/-! ## Texts in a cursor -/

theorem base64Url_ne_nil {bytes : List UInt8} (h : bytes ≠ []) : base64Url bytes ≠ [] := by
  intro hnil
  have hatob := atob_base64Url bytes
  rw [hnil] at hatob
  exact h (Option.some.inj hatob).symm

theorem encodeText_ne_nil {s : JsString} (hwell : WellFormed s) (hne : s ≠ []) :
    encodeText s ≠ [] := by
  intro hnil
  have hscalars : scalars s = scalars [] := encodeText_inj.mp hnil
  rw [WellFormed, hscalars] at hwell
  exact hne hwell.symm

theorem base64UrlDecode_encode {s : JsString} (hne : s ≠ []) (hwell : WellFormed s)
    (hmark : s.head? ≠ some 0xFEFF) : base64UrlDecode (base64UrlEncode s) = some s := by
  have hunits : (base64UrlEncode s).all isUrlUnit = true :=
    List.all_eq_true.mpr fun u hu => isUrlUnit_base64Url hu
  have hbom : stripBom (scalars s) = scalars s := by
    refine stripBom_eq_self.mpr fun hhead => hmark ?_
    obtain ⟨m, hm⟩ := List.head?_eq_some_iff.mp hhead
    rw [← show utf16 (scalars s) = s from hwell, hm]
    rfl
  rw [base64UrlDecode, if_pos ⟨base64Url_ne_nil (encodeText_ne_nil hwell hne), hunits⟩,
    base64UrlEncode, atob_base64Url, Option.bind_some, encodeText, decodeText_encodeUtf8, hbom,
    show utf16 (scalars s) = s from hwell]

theorem timingSafeEqual_iff {a b : JsString} : timingSafeEqual a b = true ↔ a = b := by
  rw [timingSafeEqual, sameEverywhere_iff]
  exact List.map_inj_right fun _ _ => UInt16.toNat.inj

/-! ## Stripping twice -/

section Strip
variable {ν : Type}

mutual
theorem firstForbidden_strip : ∀ v : Value ν, firstForbidden (strip v) = none
  | .null => rfl
  | .bool _ => rfl
  | .num _ => rfl
  | .str _ => rfl
  | .arr items => by
    rw [strip, firstForbidden]
    exact firstForbiddenItems_strip items
  | .obj members => by
    rw [strip, firstForbidden]
    exact firstForbiddenMembers_strip members

theorem firstForbiddenItems_strip :
    ∀ items : List (Value ν), firstForbiddenItems (stripItems items) = none
  | [] => rfl
  | v :: items => by
    rw [stripItems, firstForbiddenItems, firstForbidden_strip v, firstForbiddenItems_strip items]
    rfl

theorem firstForbiddenMembers_strip :
    ∀ members : List (JsString × Value ν), firstForbiddenMembers (stripMembers members) = none
  | [] => rfl
  | (k, v) :: members => by
    rw [stripMembers]
    split
    · exact firstForbiddenMembers_strip members
    · rename_i hkey
      rw [firstForbiddenMembers, if_neg hkey, firstForbidden_strip v,
        firstForbiddenMembers_strip members]
      rfl
end

theorem stripForbiddenKeys_strip (v : Value ν) : stripForbiddenKeys (strip v) = strip v :=
  strip_eq_self _ (firstForbidden_strip v)

end Strip

/-! ## The three parts of `decode` -/

namespace CursorCodec
variable {hmac : Hmac} {codec : CursorCodec} {ν : Type} [NumberText ν]

theorem length_mac (secret data : JsString) :
    (mac hmac secret data).length = cursorSigLength := by
  rw [mac, length_base64Url, hmac.length_sign]
  rfl

theorem verify_iff {cursor body : JsString} :
    codec.verify hmac cursor = some body ↔
      cursor.length ≤ maxCursorLength ∧ body ≠ [] ∧
        ∃ secret ∈ codec.secrets, cursor = body ++ dot :: mac hmac secret body := by
  constructor
  · intro h
    rw [verify] at h
    split at h
    · cases h
    rename_i hlength
    obtain ⟨⟨front, sig⟩, hcut, h⟩ := Option.bind_eq_some_iff.mp h
    dsimp only at h
    split at h
    · cases h
    rename_i hshape
    split at h
    · rename_i hany
      obtain rfl := Option.some.inj h
      obtain ⟨secret, hsecret, hequal⟩ := List.any_eq_true.mp hany
      obtain rfl := timingSafeEqual_iff.mp hequal
      exact ⟨by omega, fun hnil => hshape (.inl hnil), secret, hsecret, (cutLast_iff.mp hcut).1⟩
    · cases h
  · rintro ⟨hlength, hne, secret, hsecret, hcursor⟩
    have hcut : cutLast cursor = some (body, mac hmac secret body) :=
      cutLast_iff.mpr ⟨hcursor, dot_notMem_base64Url _⟩
    have hpos : 0 < cursor.length := by
      rw [hcursor]
      simp
    have hunits : (mac hmac secret body).all isUrlUnit = true :=
      List.all_eq_true.mpr fun u hu => isUrlUnit_base64Url hu
    have hany : (codec.secrets.any fun s =>
        timingSafeEqual (mac hmac s body) (mac hmac secret body)) = true :=
      List.any_eq_true.mpr ⟨secret, hsecret, timingSafeEqual_iff.mpr rfl⟩
    rw [verify, if_neg (by omega), hcut, Option.bind_some]
    dsimp only
    rw [if_neg (by simp [hne, length_mac, hunits]), if_pos hany]

theorem dot_mem_body {now : ℚ} {json : JsString} :
    dot ∈ codec.body now json ↔ codec.ttl.isSome = true := by
  rw [body]
  cases codec.ttl with
  | none => simp [base64UrlEncode, dot_notMem_base64Url]
  | some ttl => simp

theorem payloadPart_iff {made : CursorCodec} {now madeAt : ℚ} {json payload : JsString}
    (hne : base64UrlEncode json ≠ []) :
    codec.payloadPart now (made.body madeAt json) = some payload ↔
      made.ttl.isSome = codec.ttl.isSome ∧
        (∀ ttl ∈ made.ttl, |expirySeconds madeAt ttl| ≤ maxSafe ∧
          seconds now ≤ expirySeconds madeAt ttl) ∧
        payload = base64UrlEncode json := by
  have hdot : dot ∈ made.body madeAt json ↔ made.ttl.isSome = true := dot_mem_body
  rw [payloadPart]
  cases hmode : codec.ttl with
  | none =>
    dsimp only
    cases hmade : made.ttl with
    | none =>
      rw [hmade] at hdot
      rw [if_neg (by simp [hdot]), body, hmade]
      simp [eq_comm]
    | some ttl =>
      rw [hmade] at hdot
      rw [if_pos (hdot.mpr rfl)]
      simp
  | some _ =>
    dsimp only
    cases hmade : made.ttl with
    | none =>
      rw [hmade] at hdot
      rw [cutLast, if_neg (by simp [hdot])]
      simp
    | some ttl =>
      have hcut : cutLast (made.body madeAt json) =
          some (base64UrlEncode json, integerText (expirySeconds madeAt ttl)) := by
        rw [body, hmade]
        exact cutLast_iff.mpr ⟨rfl, dot_notMem_integerText _⟩
      have hsafe := isSafeInteger_toDouble (expirySeconds madeAt ttl)
      rw [hcut, Option.bind_some]
      dsimp only
      rw [if_neg hne, number_integerText]
      by_cases hexpiry : |expirySeconds madeAt ttl| ≤ maxSafe
      · rw [toDouble_int hexpiry] at hsafe ⊢
        rw [Option.bind_some, hsafe.mpr hexpiry]
        simp only [Bool.not_true, Bool.false_eq_true, false_or, Int.cast_lt]
        split
        · rename_i hpast
          simp [hexpiry, hpast]
        · rename_i hcurrent
          simp [hexpiry, not_lt.mp hcurrent, eq_comm]
      · have hnone : ((toDouble (expirySeconds madeAt ttl)).bind fun exp =>
            if !isSafeInteger (some exp) ∨ exp < seconds now then none
            else some (base64UrlEncode json)) = none := by
          cases hdouble : toDouble (expirySeconds madeAt ttl) with
          | none => rfl
          | some exp =>
            rw [hdouble] at hsafe
            rw [Option.bind_some, if_pos]
            exact .inl (by simpa using fun h => hexpiry (hsafe.mp h))
        rw [hnone]
        simp [hexpiry]

theorem readPayload_iff (payload : Json ν) {v : Option (Value ν)} :
    readPayload (base64UrlEncode (stringify payload.1)) = some v ↔
      payload.1.members ≤ 1000 ∧ payload.1.depth ≤ 20 ∧ v = some (strip payload.1) := by
  obtain ⟨u, rest, hu, hascii⟩ := head_stringify payload.1
  have hne : stringify payload.1 ≠ [] := by simp [hu]
  have hmark : (stringify payload.1).head? ≠ some 0xFEFF := by
    rw [hu, List.head?_cons]
    intro heq
    rw [Option.some.inj heq] at hascii
    exact absurd hascii (by decide)
  have hlimits : TooLarge 1000 20 payload.1.members payload.1.depth ↔
      ¬ (payload.1.members ≤ 1000 ∧ payload.1.depth ≤ 20) := by
    rw [TooLarge, not_and_or, not_le, not_le]
    norm_num
  obtain ⟨-, hfits, hlarge⟩ := (limited_reader (ν := ν) (stringify payload.1) 1000 20).2.1
    _ _ (isJsonText_stringify payload.1)
  rw [readPayload, base64UrlDecode_encode hne (wellFormed_stringify payload.1) hmark,
    Option.bind_some]
  by_cases hsmall : payload.1.members ≤ 1000 ∧ payload.1.depth ≤ 20
  · rw [hfits (fun h => hlimits.mp h hsmall), safeJsonParse_stringify payload]
    simp [Except.toOption, hsmall, eq_comm]
  · obtain ⟨e, he⟩ := hlarge (hlimits.mpr hsmall)
    rw [he]
    constructor
    · intro h
      cases h
    · intro h
      exact absurd ⟨h.1, h.2.1⟩ hsmall

end CursorCodec

/-! ## Calls of `encode` -/

/-- A call of `encode` that returned. -/
structure EncodeCall (ν : Type) [NumberText ν] where
  codec : CursorCodec
  now : ℚ
  payload : Json ν

section Calls
variable {ν : Type} [NumberText ν]

def EncodeCall.body (call : EncodeCall ν) : JsString :=
  call.codec.body call.now (stringify call.payload.1)

def EncodeCall.cursor (hmac : Hmac) (call : EncodeCall ν) : JsString :=
  call.body ++ dot :: CursorCodec.mac hmac call.codec.signer call.body

def EncodeCall.SignedFor (call : EncodeCall ν) (codec : CursorCodec) : Prop :=
  ∃ secret ∈ codec.secrets, encodeText secret = encodeText call.codec.signer

/-- Nobody makes a signature under a key of the codec but `encode`, on the bodies of its calls. -/
def Unforgeable (hmac : Hmac) (codec : CursorCodec) (log : Set (EncodeCall ν))
    (cursor : JsString) : Prop :=
  ∀ secret ∈ codec.secrets, ∀ body, cursor = body ++ dot :: CursorCodec.mac hmac secret body →
    ∃ call ∈ log, encodeText secret = encodeText call.codec.signer ∧ call.body = body

/-- What a cursor must be to be decoded to the payload of a call. -/
structure Decodes (hmac : Hmac) (codec : CursorCodec) (now : ℚ) (cursor : JsString)
    (call : EncodeCall ν) : Prop where
  produced : call.cursor hmac = cursor
  configured : call.SignedFor codec
  mode : call.codec.ttl.isSome = codec.ttl.isSome
  short : cursor.length ≤ 4096
  current : ∀ ttl ∈ call.codec.ttl, seconds now ≤ expirySeconds call.now ttl
  few : call.payload.1.members ≤ 1000
  flat : call.payload.1.depth ≤ 20

/-- The expiry second is a number that the language keeps apart from its neighbours. -/
def EncodeCall.SafeExpiry (call : EncodeCall ν) : Prop :=
  ∀ ttl ∈ call.codec.ttl, |expirySeconds call.now ttl| ≤ maxSafe

theorem EncodeCall.payload_ne_nil (call : EncodeCall ν) :
    base64UrlEncode (stringify call.payload.1) ≠ [] := by
  obtain ⟨u, rest, hu, -⟩ := head_stringify call.payload.1
  exact base64Url_ne_nil (encodeText_ne_nil (wellFormed_stringify _) (by simp [hu]))

theorem EncodeCall.body_ne_nil (call : EncodeCall ν) : call.body ≠ [] := by
  have hne := call.payload_ne_nil
  rw [EncodeCall.body, CursorCodec.body]
  cases call.codec.ttl with
  | none => exact hne
  | some ttl => simp

theorem EncodeCall.unforgeable (hmac : Hmac) (codec : CursorCodec) (call : EncodeCall ν)
    (hsecrets : codec.secrets = [call.codec.signer]) :
    Unforgeable hmac codec {call} (call.cursor hmac) := by
  intro secret hsecret body hcursor
  rw [hsecrets, List.mem_singleton] at hsecret
  have hcut : cutLast (call.cursor hmac) = some (call.body, _) :=
    cutLast_iff.mpr ⟨rfl, dot_notMem_base64Url _⟩
  have hcut' : cutLast (call.cursor hmac) = some (body, _) :=
    cutLast_iff.mpr ⟨hcursor, dot_notMem_base64Url _⟩
  rw [hcut] at hcut'
  exact ⟨call, rfl, congrArg encodeText hsecret, (Prod.mk.inj (Option.some.inj hcut')).1⟩

theorem decodes_of_decode {hmac : Hmac} {codec : CursorCodec} {log : Set (EncodeCall ν)} {now : ℚ}
    {cursor : JsString} (hunforgeable : Unforgeable hmac codec log cursor) {v : Option (Value ν)}
    (h : codec.decode hmac now cursor = .ok v) :
    ∃ call ∈ log, Decodes hmac codec now cursor call ∧ call.SafeExpiry ∧
      v = some (strip call.payload.1) := by
  rw [CursorCodec.decode] at h
  split at h
  · cases h
  rename_i parsed hparsed
  obtain ⟨payload, hpayload, hread⟩ := Option.bind_eq_some_iff.mp hparsed
  obtain ⟨body, hverify, hpart⟩ := Option.bind_eq_some_iff.mp hpayload
  obtain ⟨hshort, -, secret, hsecret, hcursor⟩ := CursorCodec.verify_iff.mp hverify
  obtain ⟨call, hcall, hkey, rfl⟩ := hunforgeable secret hsecret body hcursor
  obtain ⟨hmode, hcurrent, rfl⟩ := (CursorCodec.payloadPart_iff call.payload_ne_nil).mp hpart
  obtain ⟨hfew, hflat, rfl⟩ := (CursorCodec.readPayload_iff call.payload).mp hread
  have hproduced : call.cursor hmac = cursor := by
    rw [EncodeCall.cursor, hcursor, CursorCodec.mac, CursorCodec.mac, hkey]
  refine ⟨call, hcall, ⟨hproduced, ⟨secret, hsecret, hkey⟩, hmode, hshort,
    fun ttl httl => (hcurrent ttl httl).2, hfew, hflat⟩,
    fun ttl httl => (hcurrent ttl httl).1, ?_⟩
  rw [← Except.ok.inj h, Option.map_some, stripForbiddenKeys_strip]

theorem Decodes.decode {hmac : Hmac} {codec : CursorCodec} {now : ℚ} {cursor : JsString}
    {call : EncodeCall ν} (h : Decodes hmac codec now cursor call) (hsafe : call.SafeExpiry) :
    codec.decode hmac now cursor = .ok (some (strip call.payload.1)) := by
  obtain ⟨secret, hsecret, hkey⟩ := h.configured
  have hcursor : cursor = call.body ++ dot :: CursorCodec.mac hmac secret call.body := by
    rw [← h.produced, EncodeCall.cursor, CursorCodec.mac, CursorCodec.mac, hkey]
  have hverify : codec.verify hmac cursor = some call.body :=
    CursorCodec.verify_iff.mpr ⟨h.short, call.body_ne_nil, secret, hsecret, hcursor⟩
  have hpart : codec.payloadPart now call.body =
      some (base64UrlEncode (stringify call.payload.1)) :=
    (CursorCodec.payloadPart_iff call.payload_ne_nil).mpr
      ⟨h.mode, fun ttl httl => ⟨hsafe ttl httl, h.current ttl httl⟩, rfl⟩
  have hread : CursorCodec.readPayload (base64UrlEncode (stringify call.payload.1)) =
      some (some (strip call.payload.1)) :=
    (CursorCodec.readPayload_iff call.payload).mpr ⟨h.few, h.flat, rfl⟩
  rw [CursorCodec.decode, hverify, Option.bind_some, hpart, Option.bind_some, hread]
  dsimp only
  rw [Option.map_some, stripForbiddenKeys_strip]

/-! ## The main result -/

/-- **A codec decodes what was encoded**, under one of its secrets, in its mode and within the
limits, up to and including the expiry second if that is a safe integer, and to the payload without
its forbidden members. Every other string is the one `BadRequestError`. -/
theorem signed_cursors (hmac : Hmac) (codec : CursorCodec) (log : Set (EncodeCall ν)) (now : ℚ)
    (cursor : JsString) (hunforgeable : Unforgeable hmac codec log cursor) :
    (∀ v : Option (Value ν), codec.decode hmac now cursor = .ok v ↔
      ∃ call ∈ log, Decodes hmac codec now cursor call ∧ call.SafeExpiry ∧
        v = some (strip call.payload.1)) ∧
    ((¬ ∃ call ∈ log, Decodes hmac codec now cursor call ∧ call.SafeExpiry) →
      codec.decode (ν := ν) hmac now cursor =
        .error (.badRequest (js "Invalid pagination cursor."))) := by
  constructor
  · intro v
    constructor
    · exact decodes_of_decode hunforgeable
    · rintro ⟨call, -, hdecodes, hsafe, rfl⟩
      exact hdecodes.decode hsafe
  · intro hnone
    cases hdecode : codec.decode (ν := ν) hmac now cursor with
    | ok v =>
      obtain ⟨call, hcall, hdecodes, hsafe, -⟩ := decodes_of_decode hunforgeable hdecode
      exact absurd ⟨call, hcall, hdecodes, hsafe⟩ hnone
    | error e =>
      rw [CursorCodec.decode] at hdecode
      split at hdecode
      · exact hdecode.symm
      · cases hdecode

end Calls

/-! ## Two cursors -/

def sampleSecret : JsString := js "0123456789abcdef"

def sampleTag (key data : List UInt8) : List UInt8 :=
  if key = encodeText sampleSecret ∧ data = encodeText (js "bnVsbA") then
    [0x2f, 0x0d, 0x30, 0x6c, 0xc6, 0x81, 0xe8, 0x95, 0xed, 0xad, 0x06, 0x03, 0xb5, 0x98, 0xf3, 0xf6,
      0x39, 0xbd, 0xa5, 0x26, 0x53, 0x9f, 0x52, 0x1b, 0xa3, 0xca, 0xa0, 0x3c, 0x04, 0x16, 0x1f, 0xc9]
  else if key = encodeText sampleSecret ∧ data = encodeText (js "bnVsbA.9007199254740992") then
    [0x83, 0x3e, 0x2a, 0xec, 0x77, 0x0d, 0x0b, 0x08, 0x30, 0xe5, 0x36, 0xbf, 0x67, 0xed, 0x88, 0x34,
      0x1b, 0x3f, 0xb8, 0xab, 0x5d, 0xda, 0x9e, 0x9c, 0xfe, 0xcd, 0xe8, 0xab, 0xa6, 0xc9, 0x9f, 0x8f]
  else List.replicate 32 0

def sampleHmac : Hmac where
  sign := sampleTag
  length_sign key data := by
    unfold sampleTag
    split_ifs <;> rfl

/-- A codec without an expiry and its cursor for `null`. -/
def sampleCall : EncodeCall ℕ where
  codec := ⟨sampleSecret, [], none, by decide, by simp⟩
  now := 0
  payload := ⟨.null, trivial⟩

theorem signed_cursors_null :
    Unforgeable sampleHmac sampleCall.codec {sampleCall} (sampleCall.cursor sampleHmac) ∧
      sampleCall.cursor sampleHmac = js "bnVsbA.Lw0wbMaB6JXtrQYDtZjz9jm9pSZTn1Ibo8qgPAQWH8k" ∧
      sampleCall.codec.decode sampleHmac 0 (sampleCall.cursor sampleHmac) =
        .ok (some (Value.null : Value ℕ)) := by
  have hunforgeable := sampleCall.unforgeable sampleHmac sampleCall.codec rfl
  refine ⟨hunforgeable, by decide, ?_⟩
  refine ((signed_cursors sampleHmac sampleCall.codec {sampleCall} 0 _ hunforgeable).1 _).mpr
    ⟨sampleCall, rfl, ⟨rfl, ⟨sampleSecret, List.mem_cons_self, rfl⟩, rfl, by decide, ?_, ?_, ?_⟩, ?_,
      rfl⟩
  · exact fun ttl httl => absurd httl (by simp [sampleCall])
  · decide
  · decide
  · exact fun ttl httl => absurd httl (by simp [sampleCall])

def farCall : EncodeCall ℕ where
  codec := ⟨sampleSecret, [], some 9007199254740991, by decide, by
    simp [isSafeInteger, maxSafe]⟩
  now := 1000
  payload := ⟨.null, trivial⟩

theorem seconds_farCall : seconds farCall.now = 1 := by
  have hone : nearest ((1 : ℤ) : ℚ) = ((1 : ℤ) : ℚ) := nearest_int (by decide)
  have hquotient : farCall.now / 1000 = ((1 : ℤ) : ℚ) := by
    rw [show farCall.now = 1000 from rfl]
    norm_num
  rw [seconds, hquotient, hone, Int.floor_intCast]

theorem expirySeconds_farCall : expirySeconds farCall.now 9007199254740991 = 9007199254740992 := by
  have hlog : Int.log 2 |(9007199254740992 : ℚ)| = 53 := by
    rw [abs_of_pos (by norm_num), show (9007199254740992 : ℚ) = (2 : ℕ) ^ (53 : ℤ) by norm_num,
      Int.log_zpow one_lt_two]
  have hround : roundEven (9007199254740992 / 2 ^ (1 : ℤ)) = 4503599627370496 := by
    rw [show (9007199254740992 : ℚ) / 2 ^ (1 : ℤ) = ((4503599627370496 : ℤ) : ℚ) by norm_num,
      roundEven_int]
  have hbit : lastBit 9007199254740992 = 1 := by
    rw [lastBit, hlog]
    rfl
  rw [expirySeconds, seconds_farCall,
    show ((1 : ℤ) : ℚ) + 9007199254740991 = 9007199254740992 by norm_num, nearest, hbit, hround,
    show ((4503599627370496 : ℤ) : ℚ) * 2 ^ (1 : ℤ) = ((9007199254740992 : ℤ) : ℚ) by norm_num,
    Int.floor_intCast]

theorem body_farCall : farCall.body = js "bnVsbA.9007199254740992" := by
  have hbody : farCall.body = base64UrlEncode (js "null") ++
      dot :: integerText (expirySeconds farCall.now 9007199254740991) := rfl
  rw [hbody, expirySeconds_farCall]
  decide

theorem far_expiry_refused :
    ¬ ∀ (codec : CursorCodec) (log : Set (EncodeCall ℕ)) (now : ℚ) (cursor : JsString),
      Unforgeable sampleHmac codec log cursor → ∀ v : Option (Value ℕ),
        codec.decode sampleHmac now cursor = .ok v ↔
          ∃ call ∈ log, Decodes sampleHmac codec now cursor call ∧
            v = some (strip call.payload.1) := by
  intro hclaim
  have hunforgeable := farCall.unforgeable sampleHmac farCall.codec rfl
  have httl : (9007199254740991 : ℚ) ∈ farCall.codec.ttl := rfl
  have hcurrent : ∀ ttl ∈ farCall.codec.ttl,
      seconds farCall.now ≤ expirySeconds farCall.now ttl := by
    intro ttl hmem
    rw [← Option.mem_unique httl hmem, seconds_farCall, expirySeconds_farCall]
    decide
  have hshort : (farCall.cursor sampleHmac).length ≤ 4096 := by
    rw [EncodeCall.cursor, body_farCall]
    decide
  have hdecode := (hclaim farCall.codec {farCall} farCall.now _ hunforgeable
    (some (strip farCall.payload.1))).mpr ⟨farCall, rfl,
      ⟨rfl, ⟨sampleSecret, List.mem_cons_self, rfl⟩, rfl, hshort, hcurrent, by decide, by decide⟩,
      rfl⟩
  obtain ⟨call, rfl, -, hsafe, -⟩ := decodes_of_decode hunforgeable hdecode
  have hlarge := hsafe _ httl
  rw [expirySeconds_farCall] at hlarge
  exact absurd hlarge (by decide)

end Daloy.Pagination
