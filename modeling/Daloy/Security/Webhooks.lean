import Daloy.Foundations.Encodings
import Daloy.Foundations.Fallible
import Daloy.Foundations.Text
import Daloy.Foundations.UrlStandard
import Mathlib.Algebra.Order.Floor.Ring
import Mathlib.Data.Rat.Floor

/-! # Webhook signatures

`signWebhookPayload` and `verifyWebhookSignature` of `src/security.ts`. The HMAC of the runtime is a
parameter.

* `signedBytes_inj`: the signed bytes have one parse.
* `decode_hex`: how the text of a signature is read, under every algorithm.
-/

namespace Daloy.Security.Webhooks
set_option autoImplicit false

open Daloy.Fallible Daloy.Json Daloy.Text Daloy.Unicode

/-! ## The source -/

/-- `WebhookHmacAlgorithm`. -/
inductive Algorithm
  | sha256
  | sha384
  | sha512
  deriving DecidableEq

def Algorithm.name : Algorithm → JsString
  | .sha256 => js "sha256"
  | .sha384 => js "sha384"
  | .sha512 => js "sha512"

def Algorithm.signatureBytes : Algorithm → ℕ
  | .sha256 => 32
  | .sha384 => 48
  | .sha512 => 64

/-- What `crypto.subtle` does with a key that it imported. -/
structure WebCrypto where
  hmac : Algorithm → List UInt8 → List UInt8 → List UInt8
  length_hmac : ∀ algorithm key message,
    (hmac algorithm key message).length = algorithm.signatureBytes

inductive Source
  | text (s : JsString)
  | bytes (b : List UInt8)
  deriving DecidableEq

def Source.toBytes : Source → List UInt8
  | .text s => encodeText s
  | .bytes b => b

def Source.length : Source → ℕ
  | .text s => s.length
  | .bytes b => b.length

/-- Seconds as a string or as a number, `none` where that is not finite. -/
inductive Timestamp
  | text (s : JsString)
  | number (n : Option ℚ)
  deriving DecidableEq

structure SignOptions where
  payload : Source
  secret : Source
  algorithm : Option JsString := none
  timestamp : Option Timestamp := none
  id : Option JsString := none

inductive WebhookError
  | typeError (message : JsString)
  | error (message : JsString)
  /-- What `importKey` throws for an empty key. -/
  | dataError
  deriving DecidableEq

def resolveWebhookAlgorithm (algorithm : JsString) : Option Algorithm :=
  if algorithm = js "sha256" then some .sha256
  else if algorithm = js "sha384" then some .sha384
  else if algorithm = js "sha512" then some .sha512
  else none

def hexPairs : JsString → List UInt8
  | h :: l :: rest =>
    UInt8.ofNat ((hexDigit h).getD 0 * 16 + (hexDigit l).getD 0) :: hexPairs rest
  | _ => []

def hexToBytes (hex : JsString) : Option (List UInt8) :=
  if hex.length = 0 ∨ hex.length % 2 ≠ 0 ∨ hex.any fun u => (hexDigit u).isNone then none
  else some (hexPairs hex)

def isBase64Unit (u : UInt16) : Bool := (unitSextet u).isSome || u == 0x2D || u == 0x5F

def base64ToBytes (b64 : JsString) : Option (List UInt8) :=
  if b64.length = 0 ∨ b64.length % 4 = 1 then none
  else if (b64.takeWhile isBase64Unit).length = 0 ∨ 2 < (b64.dropWhile isBase64Unit).length ∨
      (b64.dropWhile isBase64Unit).any fun u => u ≠ paddingUnit then none
  else
    atob (fromUrlAlphabet b64 ++
      (if b64.length % 4 = 0 then [] else List.replicate (4 - b64.length % 4) paddingUnit))

def bytesToHex (bytes : List UInt8) : JsString :=
  bytes.flatMap fun b => [hexUnit (b.toNat / 16), hexUnit (b.toNat % 16)]

def timingSafeEqualBytes (a b : List UInt8) : Bool :=
  sameEverywhere (a.map UInt8.toNat) (b.map UInt8.toNat)

/-- `/^(sha1|sha256|sha384|sha512)=/i`: the name in lower case, and what is behind the match. -/
def signaturePrefix (value : JsString) : Option (JsString × JsString) :=
  [js "sha1", js "sha256", js "sha384", js "sha512"].findSome? fun name =>
    if UrlStandard.lowerAscii (value.take (name.length + 1)) = name ++ js "=" then
      some (name, value.drop (name.length + 1))
    else none

def decodeWebhookSignature (signature : Source) (expected : Algorithm) : Option (List UInt8) :=
  match signature with
  | .bytes b => if b.length = expected.signatureBytes then some b else none
  | .text s =>
    let read (value : JsString) : Option (List UInt8) :=
      match hexToBytes value with
      | some hex =>
        if hex.length = expected.signatureBytes then some hex
        else (base64ToBytes value).filter fun b => b.length = expected.signatureBytes
      | none => (base64ToBytes value).filter fun b => b.length = expected.signatureBytes
    match signaturePrefix (trim s) with
    | some (name, rest) => if name = expected.name then read rest else none
    | none => read (trim s)

/-- `Math.floor(Number.MAX_SAFE_INTEGER / 1000)`. -/
def webhookMaxTimestampSeconds : ℕ := 9007199254740

/-- `/^(0|[1-9][0-9]{0,18})$/`. -/
def isCanonicalSeconds (ts : JsString) : Bool :=
  ts = js "0" ∨ (1 ≤ ts.length ∧ ts.length ≤ 19 ∧ ts.all isDigit ∧ ts.head? ≠ some 0x30)

def normalizeWebhookTimestamp : Timestamp → Option ℕ
  | .number none => none
  | .number (some n) =>
    if n.den ≠ 1 ∨ n < 0 ∨ webhookMaxTimestampSeconds < n then none else some n.num.toNat
  | .text ts =>
    if !isCanonicalSeconds ts ∨ webhookMaxTimestampSeconds < decimal ts then none
    else some (decimal ts)

def isValidWebhookId (id : JsString) : Bool :=
  1 ≤ id.length ∧ id.length ≤ 256 ∧ id.all fun u =>
    (0x21 ≤ u.toNat ∧ u.toNat ≤ 0x2D) ∨ (0x2F ≤ u.toNat ∧ u.toNat ≤ 0x7E)

def canonical (seconds : ℕ) : JsString := NumberText.write seconds

def dot : UInt16 := 0x2E

def buildSignedPayloadBytes (payload : List UInt8) (timestamp : Option ℕ) (id : Option JsString) :
    List UInt8 :=
  match timestamp with
  | none => payload
  | some seconds =>
    encodeText (match id with
      | none => canonical seconds ++ [dot]
      | some id => id ++ [dot] ++ canonical seconds ++ [dot]) ++ payload

def resolveSigned (opts : SignOptions) : Except WebhookError Algorithm :=
  match resolveWebhookAlgorithm (opts.algorithm.getD (js "sha256")) with
  | none => .error (.typeError (js "unsupported webhook HMAC algorithm"))
  | some algo => .ok algo

def checkSignedId (opts : SignOptions) : Except WebhookError Unit :=
  match opts.id with
  | none => .ok ()
  | some id =>
    if opts.timestamp = none then
      .error (.typeError (js "signWebhookPayload(): id requires a timestamp"))
    else if !isValidWebhookId id then
      .error (.typeError
        (js "signWebhookPayload(): id must be 1-256 printable ASCII characters with no '.'"))
    else .ok ()

def checkSignedTimestamp (opts : SignOptions) : Except WebhookError (Option ℕ) :=
  match opts.timestamp with
  | none => .ok none
  | some ts =>
    match normalizeWebhookTimestamp ts with
    | none => .error (.typeError
        (js "signWebhookPayload(): timestamp must be a non-negative integer number of seconds"))
    | some seconds => .ok (some seconds)

def importedKey (crypto : Option WebCrypto) (secret : List UInt8) :
    Except WebhookError WebCrypto :=
  match crypto with
  | none => .error (.error (js "WebCrypto unavailable: cannot sign webhook payload"))
  | some subtle => if secret = [] then .error .dataError else .ok subtle

def signWebhookPayload (crypto : Option WebCrypto) (opts : SignOptions) :
    Except WebhookError JsString := do
  let algo ← resolveSigned opts
  checkSignedId opts
  let timestamp ← checkSignedTimestamp opts
  let subtle ← importedKey crypto opts.secret.toBytes
  return bytesToHex (subtle.hmac algo opts.secret.toBytes
    (buildSignedPayloadBytes opts.payload.toBytes timestamp opts.id))

/-- The window around the clock, in milliseconds, `none` where it or the tolerance is not finite. -/
def withinTolerance (toleranceSeconds : Option (Option ℚ)) (now : Option ℚ) (seconds : ℕ) : Bool :=
  match toleranceSeconds.getD (some 300), now with
  | some tolerance, some nowMs => 0 ≤ tolerance ∧ |(⌊nowMs / 1000⌋ : ℚ) - seconds| ≤ tolerance
  | _, _ => false

/-- The timestamp of a verification, `none` where it is malformed. -/
def readTimestamp (opts : SignOptions) : Option (Option ℕ) :=
  match opts.timestamp with
  | none => some none
  | some ts => (normalizeWebhookTimestamp ts).map some

def compareSignature (crypto : Option WebCrypto) (opts : SignOptions) (signature : Source)
    (algo : Algorithm) (timestamp : Option ℕ) : Bool :=
  match decodeWebhookSignature signature algo, crypto with
  | some providedBytes, some subtle =>
    timingSafeEqualBytes (subtle.hmac algo opts.secret.toBytes
      (buildSignedPayloadBytes opts.payload.toBytes timestamp opts.id)) providedBytes
  | _, _ => false

def verifyWebhookSignature (crypto : Option WebCrypto) (opts : SignOptions) (signature : Source)
    (toleranceSeconds : Option (Option ℚ)) (now : Option ℚ) : Bool :=
  match resolveWebhookAlgorithm (opts.algorithm.getD (js "sha256")) with
  | none => false
  | some algo =>
    if opts.secret.length = 0 then false
    else if opts.id.any fun id => opts.timestamp = none ∨ !isValidWebhookId id then false
    else
      match readTimestamp opts with
      | none => false
      | some timestamp =>
        if timestamp.any fun seconds => !withinTolerance toleranceSeconds now seconds then false
        else compareSignature crypto opts signature algo timestamp

/-! ## The text of a signature -/

/-- A digit of `bytesToHex`. -/
def IsHexUnit (u : UInt16) : Prop := ∃ n < 16, u = hexUnit n

theorem hexUnit_facts {u : UInt16} (h : IsHexUnit u) :
    isWhitespace u = false ∧ u ≠ 0x3D ∧ (hexDigit u).isSome = true ∧
      (unitSextet u).isSome = true ∧ ¬ (0x41 ≤ u.toNat ∧ u.toNat ≤ 0x5A) ∧ u ≠ 0x2D ∧ u ≠ 0x5F := by
  have hall : ∀ k : Fin 16, isWhitespace (hexUnit k.val) = false ∧ hexUnit k.val ≠ 0x3D ∧
      (hexDigit (hexUnit k.val)).isSome = true ∧ (unitSextet (hexUnit k.val)).isSome = true ∧
      ¬ (0x41 ≤ (hexUnit k.val).toNat ∧ (hexUnit k.val).toNat ≤ 0x5A) ∧
      hexUnit k.val ≠ 0x2D ∧ hexUnit k.val ≠ 0x5F := by
    decide
  obtain ⟨n, hn, rfl⟩ := h
  exact hall ⟨n, hn⟩

theorem bytesToHex_units (bytes : List UInt8) : ∀ u ∈ bytesToHex bytes, IsHexUnit u := by
  intro u hu
  obtain ⟨b, -, hu⟩ := List.mem_flatMap.mp hu
  have hlt := b.toNat_lt
  obtain rfl | hu := List.mem_cons.mp hu
  · exact ⟨b.toNat / 16, by omega, rfl⟩
  · exact ⟨b.toNat % 16, by omega, List.mem_singleton.mp hu⟩

theorem length_bytesToHex (bytes : List UInt8) :
    (bytesToHex bytes).length = 2 * bytes.length := by
  unfold bytesToHex
  induction bytes with
  | nil => rfl
  | cons b bytes ih =>
    rw [List.flatMap_cons, List.length_append, ih, List.length_cons]
    simp only [List.length_cons, List.length_nil]
    omega

theorem hexPairs_bytesToHex (bytes : List UInt8) : hexPairs (bytesToHex bytes) = bytes := by
  have hdigit {n : ℕ} (hn : n < 16) : hexDigit (hexUnit n) = some n := by
    have hall : ∀ k : Fin 16, hexDigit (hexUnit k.val) = some k.val := by decide
    exact hall ⟨n, hn⟩
  unfold bytesToHex
  induction bytes with
  | nil => rfl
  | cons b bytes ih =>
    have hlt := b.toNat_lt
    have hvalue : b.toNat / 16 * 16 + b.toNat % 16 = b.toNat := by omega
    rw [List.flatMap_cons, List.cons_append, List.cons_append, List.nil_append, hexPairs,
      hdigit (by omega), hdigit (by omega), Option.getD_some, Option.getD_some, hvalue,
      UInt8.ofNat_toNat, ih]

theorem hexToBytes_bytesToHex {bytes : List UInt8} (hne : bytes ≠ []) :
    hexToBytes (bytesToHex bytes) = some bytes := by
  have hlength := length_bytesToHex bytes
  have hpos := List.length_pos_iff.mpr hne
  have hdigits : (bytesToHex bytes).any (fun u => (hexDigit u).isNone) = false := by
    rw [List.any_eq_false]
    intro u hu
    have hsome := (hexUnit_facts (bytesToHex_units bytes u hu)).2.2.1
    rw [Option.isNone_iff_eq_none, ← Option.not_isSome_iff_eq_none, not_not]
    exact hsome
  rw [hexToBytes, if_neg, hexPairs_bytesToHex]
  rw [hdigits]
  simp only [Bool.false_eq_true, or_false, not_or, not_not]
  omega

theorem signaturePrefix_hex (bytes : List UInt8) :
    signaturePrefix (trim (bytesToHex bytes)) = none := by
  have htrim : trim (bytesToHex bytes) = bytesToHex bytes :=
    trim_of_no_blank fun u hu => (hexUnit_facts (bytesToHex_units bytes u hu)).1
  rw [htrim, signaturePrefix, List.findSome?_eq_none_iff]
  intro name _
  rw [if_neg]
  intro heq
  have hlower : UrlStandard.lowerAscii ((bytesToHex bytes).take (name.length + 1)) =
      (bytesToHex bytes).take (name.length + 1) := by
    rw [UrlStandard.lowerAscii]
    refine (List.map_congr_left fun u hu => ?_).trans (List.map_id _)
    exact if_neg (hexUnit_facts (bytesToHex_units bytes u (List.mem_of_mem_take hu))).2.2.2.2.1
  have hequals : (0x3D : UInt16) ∈ (bytesToHex bytes).take (name.length + 1) := by
    rw [← hlower, heq]
    exact List.mem_append_right _ List.mem_cons_self
  exact (hexUnit_facts (bytesToHex_units bytes _ (List.mem_of_mem_take hequals))).2.1 rfl

theorem base64_hex_length {bytes b64 : List UInt8} (heven : bytes.length % 2 = 0)
    (h : base64ToBytes (bytesToHex bytes) = some b64) : b64.length = bytes.length / 2 * 3 := by
  have hlength := length_bytesToHex bytes
  have hfour : (bytesToHex bytes).length % 4 = 0 := by omega
  have halphabet : IsAlphabet (bytesToHex bytes) :=
    fun u hu => (hexUnit_facts (bytesToHex_units bytes u hu)).2.2.2.1
  have hurl : fromUrlAlphabet (bytesToHex bytes) = bytesToHex bytes := by
    refine (List.map_congr_left fun u hu => ?_).trans (List.map_id _)
    obtain ⟨-, -, -, -, -, hdash, hunder⟩ := hexUnit_facts (bytesToHex_units bytes u hu)
    rw [if_neg hdash, if_neg hunder]
    rfl
  rw [base64ToBytes] at h
  split at h
  · exact absurd h (by simp)
  split at h
  · exact absurd h (by simp)
  · rw [List.append_nil, hurl] at h
    rw [atob_length halphabet hfour h]
    omega

theorem decode_hex {bytes : List UInt8} (hne : bytes ≠ []) (expected : Algorithm) :
    decodeWebhookSignature (.text (bytesToHex bytes)) expected =
      if bytes.length = expected.signatureBytes then some bytes
      else (base64ToBytes (bytesToHex bytes)).filter
        fun b => b.length = expected.signatureBytes := by
  have htrim : trim (bytesToHex bytes) = bytesToHex bytes :=
    trim_of_no_blank fun u hu => (hexUnit_facts (bytesToHex_units bytes u hu)).1
  rw [decodeWebhookSignature, signaturePrefix_hex]
  simp only [htrim, hexToBytes_bytesToHex hne]

/-! ## What is signed and when it verifies -/

def SignOptions.seconds (opts : SignOptions) : Option ℕ :=
  opts.timestamp.bind normalizeWebhookTimestamp

def SignOptions.algo (opts : SignOptions) : Option Algorithm :=
  resolveWebhookAlgorithm (opts.algorithm.getD (js "sha256"))

def SignOptions.signedBytes (opts : SignOptions) : List UInt8 :=
  buildSignedPayloadBytes opts.payload.toBytes opts.seconds opts.id

/-- What both functions insist on but for the secret. -/
structure WellFormedOptions (opts : SignOptions) : Prop where
  id : ∀ id ∈ opts.id, opts.timestamp ≠ none ∧ isValidWebhookId id = true
  timestamp : ∀ ts ∈ opts.timestamp, normalizeWebhookTimestamp ts ≠ none

theorem checkSignedId_ok {opts : SignOptions} (h : checkSignedId opts = .ok ()) :
    ∀ id ∈ opts.id, opts.timestamp ≠ none ∧ isValidWebhookId id = true := by
  intro id hid
  rw [checkSignedId, Option.mem_def.mp hid] at h
  simp only at h
  split at h
  · exact absurd h (by simp)
  split at h
  · exact absurd h (by simp)
  · rename_i htimestamp hvalid
    exact ⟨htimestamp, by simpa using hvalid⟩

theorem checkSignedTimestamp_ok {opts : SignOptions} {timestamp : Option ℕ}
    (h : checkSignedTimestamp opts = .ok timestamp) :
    timestamp = opts.seconds ∧ ∀ ts ∈ opts.timestamp, normalizeWebhookTimestamp ts ≠ none := by
  rw [checkSignedTimestamp] at h
  unfold SignOptions.seconds
  cases hts : opts.timestamp with
  | none =>
    rw [hts] at h
    exact ⟨(Except.ok.inj h).symm, by simp⟩
  | some ts =>
    rw [hts] at h
    cases hseconds : normalizeWebhookTimestamp ts with
    | none =>
      simp only [hseconds] at h
      exact absurd h (by simp)
    | some seconds =>
      simp only [hseconds] at h
      refine ⟨by rw [Option.bind_some, hseconds, ← Except.ok.inj h], ?_⟩
      intro ts' hts'
      rw [← Option.mem_some_iff.mp hts', hseconds]
      exact Option.some_ne_none seconds

theorem sign_ok {crypto : Option WebCrypto} {opts : SignOptions} {signature : JsString}
    (h : signWebhookPayload crypto opts = .ok signature) :
    ∃ algo subtle, opts.algo = some algo ∧ crypto = some subtle ∧ WellFormedOptions opts ∧
      opts.secret.toBytes ≠ [] ∧
      signature = bytesToHex (subtle.hmac algo opts.secret.toBytes opts.signedBytes) := by
  rw [signWebhookPayload, bind_eq_ok] at h
  obtain ⟨algo, halgo, h⟩ := h
  obtain ⟨⟨⟩, hid, h⟩ := bind_eq_ok.mp h
  obtain ⟨timestamp, htimestamp, h⟩ := bind_eq_ok.mp h
  obtain ⟨subtle, hsubtle, h⟩ := bind_eq_ok.mp h
  obtain ⟨rfl, hwell⟩ := checkSignedTimestamp_ok htimestamp
  have halgo' : opts.algo = some algo := by
    rw [resolveSigned] at halgo
    unfold SignOptions.algo
    cases hresolved : resolveWebhookAlgorithm (opts.algorithm.getD (js "sha256")) with
    | none =>
      rw [hresolved] at halgo
      exact absurd halgo (by simp)
    | some a =>
      rw [hresolved] at halgo
      rw [Except.ok.inj halgo]
  cases crypto with
  | none => exact absurd hsubtle (by simp [importedKey])
  | some c =>
    rw [importedKey] at hsubtle
    split at hsubtle
    · exact absurd hsubtle (by simp)
    · rename_i hne
      obtain rfl := Except.ok.inj hsubtle
      exact ⟨algo, c, halgo', rfl, ⟨checkSignedId_ok hid, hwell⟩, hne, (Except.ok.inj h).symm⟩

theorem timingSafeEqualBytes_iff {a b : List UInt8} : timingSafeEqualBytes a b = true ↔ a = b := by
  rw [timingSafeEqualBytes, sameEverywhere_iff]
  exact List.map_inj_right fun _ _ => UInt8.toNat.inj

theorem id_refused_iff {opts : SignOptions} :
    (opts.id.any fun id => opts.timestamp = none ∨ !isValidWebhookId id) = false ↔
      ∀ id ∈ opts.id, opts.timestamp ≠ none ∧ isValidWebhookId id = true := by
  cases opts.id with
  | none => simp
  | some id => simp

theorem readTimestamp_eq_some {opts : SignOptions} {timestamp : Option ℕ} :
    readTimestamp opts = some timestamp ↔
      (∀ ts ∈ opts.timestamp, normalizeWebhookTimestamp ts ≠ none) ∧ opts.seconds = timestamp := by
  unfold readTimestamp SignOptions.seconds
  cases opts.timestamp with
  | none => simp
  | some ts =>
    simp only [Option.mem_some_iff, forall_eq', Option.bind_some]
    cases normalizeWebhookTimestamp ts with
    | none => simp
    | some seconds => simp

theorem compareSignature_iff {subtle : WebCrypto} {opts : SignOptions} {signature : Source}
    {algo : Algorithm} :
    compareSignature (some subtle) opts signature algo opts.seconds = true ↔
      decodeWebhookSignature signature algo =
        some (subtle.hmac algo opts.secret.toBytes opts.signedBytes) := by
  unfold compareSignature SignOptions.signedBytes
  cases decodeWebhookSignature signature algo with
  | none => simp
  | some provided => rw [timingSafeEqualBytes_iff, Option.some_inj, eq_comm]

theorem clock_refused_iff {toleranceSeconds : Option (Option ℚ)} {now : Option ℚ}
    {timestamp : Option ℕ} :
    (timestamp.any fun seconds => !withinTolerance toleranceSeconds now seconds) = false ↔
      ∀ seconds ∈ timestamp, withinTolerance toleranceSeconds now seconds = true := by
  cases timestamp with
  | none => simp
  | some seconds => simp

theorem verify_iff {subtle : WebCrypto} {opts : SignOptions} {signature : Source}
    {toleranceSeconds : Option (Option ℚ)} {now : Option ℚ} :
    verifyWebhookSignature (some subtle) opts signature toleranceSeconds now = true ↔
      ∃ algo, opts.algo = some algo ∧ opts.secret.length ≠ 0 ∧ WellFormedOptions opts ∧
        (∀ seconds ∈ opts.seconds, withinTolerance toleranceSeconds now seconds = true) ∧
        decodeWebhookSignature signature algo =
          some (subtle.hmac algo opts.secret.toBytes opts.signedBytes) := by
  unfold verifyWebhookSignature SignOptions.algo
  cases resolveWebhookAlgorithm (opts.algorithm.getD (js "sha256")) with
  | none => simp
  | some algo =>
    simp only [Option.some.injEq, exists_eq_left']
    constructor
    · intro h
      split at h
      · exact absurd h Bool.false_ne_true
      rename_i hsecret
      split at h
      · exact absurd h Bool.false_ne_true
      rename_i hid
      cases hread : readTimestamp opts with
      | none => simp [hread] at h
      | some timestamp =>
        obtain ⟨hwell, rfl⟩ := readTimestamp_eq_some.mp hread
        simp only [hread] at h
        split at h
        · exact absurd h Bool.false_ne_true
        rename_i hclock
        exact ⟨hsecret, ⟨id_refused_iff.mp (by simpa using hid), hwell⟩,
          clock_refused_iff.mp (by simpa using hclock), compareSignature_iff.mp h⟩
    · rintro ⟨hsecret, hwell, hclock, hdecode⟩
      have hread := readTimestamp_eq_some.mpr ⟨hwell.timestamp, rfl⟩
      rw [if_neg hsecret, id_refused_iff.mpr hwell.id, if_neg Bool.false_ne_true, hread]
      simp only
      rw [clock_refused_iff.mpr hclock, if_neg Bool.false_ne_true]
      exact compareSignature_iff.mpr hdecode

/-! ## The signed bytes have one parse -/

def IsField (s : JsString) : Prop := ∀ u ∈ s, u.toNat < 0x80 ∧ u ≠ dot

theorem IsField.encode {s : JsString} (h : IsField s) (rest : JsString) :
    encodeText (s ++ [dot] ++ rest) = encodeText s ++ 0x2E :: encodeText rest := by
  have hdot : encodeText ([dot] ++ rest) = 0x2E :: encodeText rest := by
    rw [encodeText_append (by decide)]
    rfl
  rw [List.append_assoc, encodeText_append fun u hu => isPlain_ascii (h u hu).1, hdot]

theorem IsField.inj {s t : JsString} (hs : IsField s) (ht : IsField t) {r r' : List UInt8}
    (h : encodeText s ++ 0x2E :: r = encodeText t ++ 0x2E :: r') : s = t ∧ r = r' := by
  have hnot {v : JsString} (hv : IsField v) : (0x2E : UInt8) ∉ encodeText v :=
    @not_mem_encodeText v (fun u hu => (hv u hu).1) dot (by decide)
      fun hmem => (hv dot hmem).2 rfl
  obtain ⟨htext, hrest⟩ := separator_inj (hnot hs) (hnot ht) h
  exact ⟨encodeText_ascii_inj (fun u hu => (hs u hu).1) (fun u hu => (ht u hu).1) htext, hrest⟩

theorem isField_canonical (seconds : ℕ) : IsField (canonical seconds) := by
  intro u hu
  have hdigit := write_digits seconds u hu
  simp only [isDigit, Bool.and_eq_true, decide_eq_true_eq] at hdigit
  refine ⟨by omega, ?_⟩
  rintro rfl
  exact absurd hdigit (by decide)

theorem isField_id {id : JsString} (h : isValidWebhookId id = true) : IsField id := by
  simp only [isValidWebhookId, decide_eq_true_eq, List.all_eq_true] at h
  intro u hu
  have hunit := h.2.2 u hu
  refine ⟨by omega, ?_⟩
  rintro rfl
  exact absurd hunit (by decide)

def SameShape (opts opts' : SignOptions) : Prop :=
  opts.id.isSome = opts'.id.isSome ∧ opts.timestamp.isSome = opts'.timestamp.isSome

theorem WellFormedOptions.seconds {opts : SignOptions} (h : WellFormedOptions opts)
    {ts : Timestamp} (hts : opts.timestamp = some ts) : ∃ seconds, opts.seconds = some seconds := by
  obtain ⟨seconds, hseconds⟩ := Option.ne_none_iff_exists'.mp (h.timestamp ts hts)
  exact ⟨seconds, by rw [SignOptions.seconds, hts, Option.bind_some, hseconds]⟩

theorem signedBytes_timestamp {opts : SignOptions} {seconds : ℕ}
    (hseconds : opts.seconds = some seconds) (hid : opts.id = none) :
    opts.signedBytes = encodeText (canonical seconds) ++ 0x2E :: opts.payload.toBytes := by
  have hfield := (isField_canonical seconds).encode []
  rw [List.append_nil] at hfield
  unfold SignOptions.signedBytes
  rw [hseconds, hid]
  show encodeText (canonical seconds ++ [dot]) ++ _ = _
  rw [hfield, List.append_assoc]
  rfl

theorem signedBytes_id {opts : SignOptions} {seconds : ℕ} {id : JsString}
    (hseconds : opts.seconds = some seconds) (hid : opts.id = some id) (hfield : IsField id) :
    opts.signedBytes = encodeText id ++
      0x2E :: (encodeText (canonical seconds) ++ 0x2E :: opts.payload.toBytes) := by
  have hlast := (isField_canonical seconds).encode []
  rw [List.append_nil] at hlast
  unfold SignOptions.signedBytes
  rw [hseconds, hid]
  show encodeText (id ++ [dot] ++ canonical seconds ++ [dot]) ++ _ = _
  rw [List.append_assoc (id ++ [dot]), hfield.encode, hlast, List.append_assoc, List.cons_append,
    List.append_assoc]
  rfl

theorem signedBytes_inj {opts opts' : SignOptions} (h : WellFormedOptions opts)
    (h' : WellFormedOptions opts') (hshape : SameShape opts opts')
    (heq : opts.signedBytes = opts'.signedBytes) :
    opts.id = opts'.id ∧ opts.seconds = opts'.seconds ∧
      opts.payload.toBytes = opts'.payload.toBytes := by
  obtain ⟨hids, htimestamps⟩ := hshape
  cases hts : opts.timestamp with
  | none =>
    have hts' : opts'.timestamp = none := by simpa [hts] using htimestamps.symm
    have hnoid {o : SignOptions} (ho : WellFormedOptions o) (ht : o.timestamp = none) :
        o.id = none := by
      rw [Option.eq_none_iff_forall_not_mem]
      exact fun id hid => (ho.id id hid).1 ht
    have hbare {o : SignOptions} (ht : o.timestamp = none) :
        o.signedBytes = o.payload.toBytes ∧ o.seconds = none := by
      unfold SignOptions.signedBytes SignOptions.seconds
      rw [ht]
      exact ⟨rfl, rfl⟩
    rw [(hbare hts).1, (hbare hts').1] at heq
    rw [hnoid h hts, hnoid h' hts', (hbare hts).2, (hbare hts').2]
    exact ⟨rfl, rfl, heq⟩
  | some ts =>
    obtain ⟨ts', hts'⟩ := Option.isSome_iff_exists.mp (htimestamps.symm.trans (by simp [hts]))
    obtain ⟨seconds, hseconds⟩ := h.seconds hts
    obtain ⟨seconds', hseconds'⟩ := h'.seconds hts'
    have hlast {r r' : List UInt8} (hbytes : encodeText (canonical seconds) ++ 0x2E :: r =
        encodeText (canonical seconds') ++ 0x2E :: r') : seconds = seconds' ∧ r = r' := by
      obtain ⟨htext, hrest⟩ := (isField_canonical seconds).inj (isField_canonical seconds') hbytes
      exact ⟨write_injective htext, hrest⟩
    cases hid : opts.id with
    | none =>
      have hid' : opts'.id = none := by simpa [hid] using hids.symm
      rw [signedBytes_timestamp hseconds hid, signedBytes_timestamp hseconds' hid'] at heq
      obtain ⟨rfl, hpayload⟩ := hlast heq
      rw [hid', hseconds, hseconds']
      exact ⟨rfl, rfl, hpayload⟩
    | some id =>
      obtain ⟨id', hid'⟩ := Option.isSome_iff_exists.mp (hids.symm.trans (by simp [hid]))
      have hfield := isField_id (h.id id hid).2
      have hfield' := isField_id (h'.id id' hid').2
      rw [signedBytes_id hseconds hid hfield, signedBytes_id hseconds' hid' hfield'] at heq
      obtain ⟨rfl, hrest⟩ := hfield.inj hfield' heq
      obtain ⟨rfl, hpayload⟩ := hlast hrest
      rw [hid', hseconds, hseconds']
      exact ⟨rfl, rfl, hpayload⟩

/-! ## The binding -/

/-- HMAC under one key has no collision among some messages: no two have one tag, and the text of a
tag of SHA-256, whose 64 digits also are the base64 of 48 bytes, does not spell a tag of SHA-384. -/
structure CollisionFree (subtle : WebCrypto) (key : List UInt8) (messages : Set (List UInt8)) :
    Prop where
  tags : ∀ algo, Set.InjOn (subtle.hmac algo key) messages
  spellings : ∀ m ∈ messages, ∀ m' ∈ messages,
    base64ToBytes (bytesToHex (subtle.hmac .sha256 key m)) ≠ some (subtle.hmac .sha384 key m')

theorem tag_ne_nil (subtle : WebCrypto) (algo : Algorithm) (key m : List UInt8) :
    subtle.hmac algo key m ≠ [] := by
  have hlength := subtle.length_hmac algo key m
  intro hnil
  rw [hnil] at hlength
  cases algo with
  | sha256 => exact absurd hlength (by decide)
  | sha384 => exact absurd hlength (by decide)
  | sha512 => exact absurd hlength (by decide)

theorem decode_tag {subtle : WebCrypto} {key : List UInt8} {messages : Set (List UInt8)}
    (hfree : CollisionFree subtle key messages) {m m' : List UInt8} (hm : m ∈ messages)
    (hm' : m' ∈ messages) {algo algo' : Algorithm}
    (h : decodeWebhookSignature (.text (bytesToHex (subtle.hmac algo key m))) algo' =
      some (subtle.hmac algo' key m')) : algo = algo' ∧ m = m' := by
  have hlength := subtle.length_hmac algo key m
  rw [decode_hex (tag_ne_nil subtle algo key m)] at h
  split at h
  · rename_i hsame
    rw [hlength] at hsame
    have halgo : algo = algo' := by
      cases algo <;> cases algo' <;> first | rfl | exact absurd hsame (by decide)
    subst halgo
    exact ⟨rfl, hfree.tags algo hm hm' (Option.some.inj h)⟩
  · rename_i hother
    rw [Option.filter_eq_some_iff, decide_eq_true_eq] at h
    obtain ⟨hread, hbytes⟩ := h
    have heven : (subtle.hmac algo key m).length % 2 = 0 := by
      rw [hlength]
      cases algo <;> rfl
    have hcount := base64_hex_length heven hread
    rw [hlength, hbytes] at hcount
    rw [hlength] at hother
    -- the lengths leave one pair of algorithms
    have hpair : algo = .sha256 ∧ algo' = .sha384 := by
      cases algo <;> cases algo' <;>
        first | exact ⟨rfl, rfl⟩ | exact absurd rfl hother | exact absurd hcount (by decide)
    obtain ⟨rfl, rfl⟩ := hpair
    exact absurd hread (hfree.spellings m hm m' hm')

/-- **Webhook signatures bind id, timestamp and body.** -/
theorem signatures_bind {subtle : WebCrypto} {opts : SignOptions} {signature : JsString}
    (h : signWebhookPayload (some subtle) opts = .ok signature) :
    (∀ toleranceSeconds now,
      verifyWebhookSignature (some subtle) opts (.text signature) toleranceSeconds now = true ↔
        ∀ seconds ∈ opts.seconds, withinTolerance toleranceSeconds now seconds = true) ∧
    ∀ (opts' : SignOptions) toleranceSeconds now (messages : Set (List UInt8)),
      SameShape opts opts' → opts'.secret.toBytes = opts.secret.toBytes →
      CollisionFree subtle opts.secret.toBytes messages → opts.signedBytes ∈ messages →
      opts'.signedBytes ∈ messages →
      verifyWebhookSignature (some subtle) opts' (.text signature) toleranceSeconds now = true →
        opts'.algo = opts.algo ∧ opts'.id = opts.id ∧ opts'.seconds = opts.seconds ∧
          opts'.payload.toBytes = opts.payload.toBytes := by
  obtain ⟨algo, c, halgo, hc, hwell, hsecret, rfl⟩ := sign_ok h
  obtain rfl := Option.some.inj hc
  refine ⟨fun toleranceSeconds now => ?_, ?_⟩
  · have hdecode := decode_hex (tag_ne_nil subtle algo opts.secret.toBytes opts.signedBytes) algo
    rw [if_pos (subtle.length_hmac ..)] at hdecode
    have hlength : opts.secret.length ≠ 0 := by
      intro hzero
      apply hsecret
      cases hkey : opts.secret with
      | text s =>
        rw [hkey] at hzero
        rw [List.eq_nil_of_length_eq_zero hzero]
        rfl
      | bytes b =>
        rw [hkey] at hzero
        exact List.eq_nil_of_length_eq_zero hzero
    rw [verify_iff]
    constructor
    · rintro ⟨-, -, -, -, hclock, -⟩
      exact hclock
    · exact fun hclock => ⟨algo, halgo, hlength, hwell, hclock, hdecode⟩
  · intro opts' toleranceSeconds now messages hshape hkey hfree hm hm' hverify
    obtain ⟨algo', halgo', -, hwell', -, hdecode⟩ := verify_iff.mp hverify
    rw [hkey] at hdecode
    obtain ⟨rfl, hbytes⟩ := decode_tag hfree hm hm' hdecode
    obtain ⟨hid, hseconds, hpayload⟩ := signedBytes_inj hwell hwell' hshape hbytes
    exact ⟨halgo'.trans halgo.symm, hid.symm, hseconds.symm, hpayload.symm⟩

def sampleCrypto : WebCrypto where
  hmac algo key message :=
    if key = encodeText (js "whsec_daloy") ∧ message = encodeText (js "msg_1.1700000000.hello") then
      match algo with
      | .sha256 => [98, 67, 191, 207, 127, 147, 167, 117, 150, 52, 73, 206, 114, 120, 136, 113,
          24, 209, 162, 28, 146, 125, 87, 44, 108, 119, 123, 115, 201, 53, 37, 88]
      | .sha384 => [190, 152, 181, 23, 73, 1, 220, 84, 33, 169, 41, 73, 218, 252, 131, 147, 81,
          230, 74, 59, 23, 242, 213, 68, 14, 176, 245, 161, 133, 127, 253, 53, 23, 31, 135, 148,
          185, 213, 156, 1, 129, 252, 22, 181, 231, 74, 206, 183]
      | .sha512 => [73, 160, 232, 188, 248, 133, 160, 33, 119, 227, 186, 123, 40, 155, 21, 183,
          196, 129, 98, 17, 24, 79, 206, 48, 14, 104, 237, 34, 240, 202, 115, 255, 176, 101, 74,
          49, 80, 44, 151, 47, 5, 199, 179, 130, 21, 22, 34, 91, 103, 200, 238, 247, 108, 71, 188,
          221, 187, 125, 39, 82, 225, 243, 212, 220]
    else List.replicate algo.signatureBytes 0
  length_hmac algo key message := by
    split
    · cases algo <;> rfl
    · exact List.length_replicate

def sampleOptions : SignOptions :=
  { payload := .text (js "hello")
    secret := .text (js "whsec_daloy")
    timestamp := some (.text (js "1700000000"))
    id := some (js "msg_1") }

theorem signatures_bind_sample :
    CollisionFree sampleCrypto sampleOptions.secret.toBytes {sampleOptions.signedBytes} ∧
      verifyWebhookSignature (some sampleCrypto) sampleOptions
        (.text (js "6243bfcf7f93a775963449ce7278887118d1a21c927d572c6c777b73c9352558")) none
        (some 1700000100000) = true := by
  have hsign : signWebhookPayload (some sampleCrypto) sampleOptions =
      .ok (js "6243bfcf7f93a775963449ce7278887118d1a21c927d572c6c777b73c9352558") := by
    rfl
  have hseconds : sampleOptions.seconds = some 1700000000 := by rfl
  refine ⟨⟨fun algo => Set.injOn_singleton _ _, ?_⟩,
    ((signatures_bind hsign).1 none (some 1700000100000)).mpr ?_⟩
  · rintro m rfl m' rfl
    decide
  · intro seconds hs
    rw [hseconds] at hs
    obtain rfl := Option.some.inj hs
    have hfloor : ⌊(1700000100000 : ℚ) / 1000⌋ = 1700000100 := by norm_num
    simp only [withinTolerance, Option.getD_none, hfloor, decide_eq_true_eq]
    norm_num

end Daloy.Security.Webhooks
