import Daloy.Foundations.Doubles
import Daloy.Http.Headers
import Mathlib.Data.List.Infix

/-! # Encodings of a response

`compression` of `src/compression.ts`: what the client accepts, what the server prefers, and what is
sent.

* `weight`: the quality that a header gives an encoding. `Respects`: a choice that the client agrees
  with.
* `pickEncoding_eq`: the encoding that is picked is the first one with a positive weight.
-/

namespace Daloy.Http.Compression
set_option autoImplicit false

open Daloy.Doubles Daloy.Json Daloy.Text Daloy.Unicode

/-! ## The header -/

inductive CompressionEncoding
  | br
  | gzip
  | deflate
  deriving DecidableEq

def CompressionEncoding.text : CompressionEncoding → JsString
  | .br => js "br"
  | .gzip => js "gzip"
  | .deflate => js "deflate"

inductive Coding
  | coded (encoding : CompressionEncoding)
  | identity
  | star
  deriving DecidableEq

/-- An entry of the header. -/
structure ParsedAccept where
  encoding : Coding
  q : ℚ
  deriving DecidableEq

def semicolon : UInt16 := 0x3B

def numeralPrefix (s : JsString) : JsString :=
  let whole := s.takeWhile isDigit
  let rest := s.dropWhile isDigit
  if rest.head? = some Doubles.pointUnit then whole ++ Doubles.pointUnit :: (rest.drop 1).takeWhile isDigit
  else whole

/-- `Number.parseFloat`, on a text of digits and points; `none` where it is not finite. -/
def parseFloat (s : JsString) : Option ℚ := (readUnsigned (numeralPrefix s)).bind toDouble

def weightParam (param : JsString) : Option ℚ :=
  let p := trim param
  if toLowerCase (p.take 2) = js "q=" ∧ p.drop 2 ≠ [] ∧
      (p.drop 2).all (fun u => isDigit u || u = Doubles.pointUnit) then
    (parseFloat (p.drop 2)).filter fun (parsed : ℚ) => 0 ≤ parsed ∧ parsed ≤ 1
  else none

def entryWeight (params : List JsString) : ℚ :=
  params.foldl (fun q p => (weightParam p).getD q) 1

def codingOf (token : JsString) : Option Coding :=
  if token = js "br" then some (.coded .br)
  else if token = js "gzip" then some (.coded .gzip)
  else if token = js "deflate" then some (.coded .deflate)
  else if token = js "identity" then some .identity
  else if token = js "*" then some .star
  else none

def parseEntry (raw : JsString) : Option ParsedAccept :=
  let pieces := splitOn semicolon (trim raw)
  let token := toLowerCase (trim (pieces.headD []))
  (codingOf token).map fun encoding => { encoding, q := entryWeight pieces.tail }

def parseAcceptEncoding (header : Option JsString) : List ParsedAccept :=
  match header with
  | none | some [] => []
  | some text => (splitOn comma text).filterMap parseEntry

/-! ## The choice -/

/-- The two variables of the loop over the entries. -/
structure Expressed where
  explicit : JsMap Coding ℚ := ∅
  starQ : Option ℚ := none

def Expressed.add (s : Expressed) (a : ParsedAccept) : Expressed :=
  if a.encoding = .star then { s with starQ := some a.q }
  else if (s.explicit.get? a.encoding).all (· < a.q) then
    { s with explicit := s.explicit.set a.encoding a.q }
  else s

def expressed (accept : List ParsedAccept) : Expressed := accept.foldl Expressed.add {}

def Expressed.get (s : Expressed) (enc : CompressionEncoding) : Option ℚ :=
  (s.explicit.get? (.coded enc)).or s.starQ

def pickEncoding (accept : List ParsedAccept) (serverPreferred : List CompressionEncoding)
    (runtimeSupported : List CompressionEncoding) : Option CompressionEncoding :=
  if accept.length = 0 then none
  else serverPreferred.find? fun enc =>
    enc ∈ runtimeSupported && ((expressed accept).get enc).any (0 < ·)

/-! ## The middleware -/

structure Request where
  method : JsString
  fields : JsMap JsString JsString

/-- `body` is `none` where reading it fails; `rawStream` when the handler attached one. -/
structure Response where
  status : ℕ
  fields : JsMap JsString JsString
  body : Option (List UInt8)
  rawStream : Bool := false

/-- Sizes are rationals, as the numbers of the language that are finite. -/
structure CompressionOptions where
  compressLevel : Bool := false
  minimumSize : Option ℚ := none
  maxCompressibleBytes : Option ℚ := none
  encodings : Option (List JsString) := none
  excludeContentTypes : Option (List JsString) := none
  authCookieNames : Option (List JsString) := none

inductive CompressionError
  | compressLevel
  | minimumSize
  | maxCompressibleBytes
  | minimumAboveMaximum
  | unknownEncoding (encoding : JsString)
  | emptyEntry (optionName : JsString)
  deriving DecidableEq

/-- `Number.isInteger(n) && low <= n && n <= 2 ** 31 - 1`. -/
def isSize (low : ℚ) (n : ℚ) : Bool := n.den = 1 && low ≤ n && n ≤ 2 ^ 31 - 1

def encodingOf (text : JsString) : Option CompressionEncoding :=
  if text = js "br" then some .br
  else if text = js "gzip" then some .gzip
  else if text = js "deflate" then some .deflate
  else none

def normalizeOptionTokens (values : Option (List JsString)) (optionName : JsString) :
    Except CompressionError (List JsString) :=
  (values.getD []).mapM fun value =>
    if toLowerCase (trim value) = [] then .error (.emptyEntry optionName)
    else .ok (toLowerCase (trim value))

/-- What the hook closes over. -/
structure CompressionHook where
  minimumSize : ℚ
  maxCompressibleBytes : ℚ
  serverPreferred : List CompressionEncoding
  extraDeny : List JsString
  extraAuthCookies : List JsString

def compression (opts : CompressionOptions) : Except CompressionError CompressionHook := do
  let minimumSize := opts.minimumSize.getD 1024
  let maxCompressibleBytes := opts.maxCompressibleBytes.getD 1048576
  if opts.compressLevel then throw .compressLevel
  if !isSize 0 minimumSize then throw .minimumSize
  if !isSize 1 maxCompressibleBytes then throw .maxCompressibleBytes
  if minimumSize > maxCompressibleBytes then throw .minimumAboveMaximum
  let encodings := opts.encodings.getD []
  let serverPreferred ← (if encodings = [] then [js "br", js "gzip", js "deflate"]
    else encodings).mapM fun enc =>
      match encodingOf enc with
      | some encoding => .ok encoding
      | none => .error (.unknownEncoding enc)
  let extraDeny ← normalizeOptionTokens opts.excludeContentTypes (js "excludeContentTypes")
  let extraAuthCookies ← normalizeOptionTokens opts.authCookieNames (js "authCookieNames")
  return { minimumSize, maxCompressibleBytes, serverPreferred, extraDeny, extraAuthCookies }

def alwaysDenyContentTypes : List JsString :=
  [js "image/", js "video/", js "audio/", js "font/", js "application/zip", js "application/gzip",
    js "application/x-7z", js "application/x-gzip", js "application/x-bzip", js "application/x-xz",
    js "application/zstd", js "application/x-zstd", js "application/wasm", js "application/pdf",
    js "application/epub+zip"]

def alwaysAuthCookieTokens : List JsString :=
  [js "session", js "csrf", js "xsrf", js "__host-", js "__secure-"]

def streamingContentTypes : List JsString :=
  [js "text/event-stream", js "application/x-ndjson", js "application/ndjson",
    js "application/jsonl", js "application/x-jsonlines", js "application/json-seq"]

def mediaType (contentType : JsString) : JsString :=
  toLowerCase (trim (contentType.takeWhile (· ≠ semicolon)))

def isExcludedContentType (contentType : JsString) (extraDeny : List JsString) : Bool :=
  let token := mediaType contentType
  token ≠ [] && token ≠ js "image/svg+xml" &&
    (alwaysDenyContentTypes ++ extraDeny).any fun deny => deny <+: token

def isStreamingResponse (res : Response) : Bool :=
  mediaType ((res.fields.get? (js "content-type")).getD []) ∈ streamingContentTypes ||
    (splitOn comma ((res.fields.get? (js "cache-control")).getD [])).any
      (fun directive => toLowerCase (trim directive) = js "no-transform") ||
    res.rawStream

def requestCarriesAuthCookie (cookieHeader : JsString) (extra : List JsString) : Bool :=
  cookieHeader ≠ [] &&
    (alwaysAuthCookieTokens ++ extra.map toLowerCase).any fun tok =>
      tok <:+: toLowerCase cookieHeader

/-- What `vary` becomes. -/
def varyValue (existing : JsString) : JsString :=
  let parts := (splitOn comma existing).map trim
  if existing = [] then js "Accept-Encoding"
  else if parts.any fun p => p = js "*" || toLowerCase p = js "accept-encoding" then existing
  else existing ++ js ", Accept-Encoding"

def appendVaryAcceptEncoding (fields : JsMap JsString JsString) : JsMap JsString JsString :=
  fields.set (js "vary") (varyValue ((fields.get? (js "vary")).getD []))

/-- Whether the hook leaves a response alone before it looks at what the client accepts. -/
def isPassedOn (c : CompressionHook) (req : Request) (res : Response) : Bool :=
  (req.method ≠ js "GET" && req.method ≠ js "HEAD") ||
    (res.status < 200 || 300 ≤ res.status) ||
    (res.fields.get? (js "content-encoding")).isSome ||
    (res.fields.get? (js "set-cookie")).isSome ||
    (req.fields.get? (js "authorization")).isSome ||
    requestCarriesAuthCookie ((req.fields.get? (js "cookie")).getD []) c.extraAuthCookies ||
    isExcludedContentType ((res.fields.get? (js "content-type")).getD []) c.extraDeny ||
    isStreamingResponse res

/-- What is compressed of a body: one of a size that is declared and found to be in the limits. -/
def captured (c : CompressionHook) (res : Response) : Option (List UInt8) :=
  if ((res.fields.get? (js "content-length")).bind number).any (c.maxCompressibleBytes < ·) then
    none
  else res.body.filter fun bytes =>
    (bytes.length : ℚ) ≤ c.maxCompressibleBytes ∧ c.minimumSize ≤ (bytes.length : ℚ)

def weakTag (etag : JsString) : JsString := if js "W/" <+: etag then etag else js "W/" ++ etag

def encodedFields (fields : JsMap JsString JsString) (encoding : CompressionEncoding)
    (length : ℕ) : JsMap JsString JsString :=
  let fields := fields.set (js "content-encoding") encoding.text
  let fields := fields.set (js "content-length") (NumberText.write length)
  match fields.get? (js "etag") with
  | none | some [] => fields
  | some etag => fields.set (js "etag") (weakTag etag)

/-- The hook `onSend`: the response with its fields as the hook leaves them, and the one it returns
instead. `compress` is the compressor of the runtime. -/
def onSend (c : CompressionHook) (runtimeSupported : List CompressionEncoding)
    (compress : CompressionEncoding → List UInt8 → List UInt8) (req : Request) (res : Response) :
    Response × Option Response :=
  let res := { res with fields := appendVaryAcceptEncoding res.fields }
  if isPassedOn c req res then (res, none)
  else
    let accept := parseAcceptEncoding (req.fields.get? (js "accept-encoding"))
    match pickEncoding accept c.serverPreferred runtimeSupported with
    | none => (res, none)
    | some chosen =>
      match captured c res with
      | none => (res, none)
      | some original =>
        let compressed := compress chosen original
        if original.length ≤ compressed.length then (res, none)
        else (res, some {
          status := res.status
          fields := encodedFields res.fields chosen compressed.length
          body := some (if req.method = js "HEAD" then [] else compressed) })

/-! ## Weights -/

def explicitWeights (accept : List ParsedAccept) (coding : Coding) : List ℚ :=
  (accept.filter fun a => a.encoding = coding).map ParsedAccept.q

/-- The weight of an encoding: the greatest that is given by name, the one of the star without one,
and zero without both. -/
def weight (accept : List ParsedAccept) (enc : CompressionEncoding) : ℚ :=
  ((explicitWeights accept (.coded enc)).max?.or
    (explicitWeights accept .star).getLast?).getD 0

/-- The first of the best: greater than those in front, and none behind is greater. -/
def FirstBest {α : Type} (score : α → ℚ) (s : List α) (a : α) : Prop :=
  ∃ front back, s = front ++ a :: back ∧ (∀ b ∈ front, score b < score a) ∧
    ∀ b ∈ back, score b ≤ score a

/-- A choice that the client agrees with: the first of the best candidates, with a positive weight;
none when no candidate has one. -/
def Respects (score : CompressionEncoding → ℚ) (candidates : List CompressionEncoding) :
    Option CompressionEncoding → Prop
  | some enc => 0 < score enc ∧ FirstBest score candidates enc
  | none => ∀ enc ∈ candidates, score enc ≤ 0

theorem FirstBest.le {α : Type} {score : α → ℚ} {s : List α} {a b : α} (h : FirstBest score s a)
    (hb : b ∈ s) : score b ≤ score a := by
  obtain ⟨front, back, rfl, hfront, hback⟩ := h
  obtain hb | hb := List.mem_append.mp hb
  · exact (hfront b hb).le
  · obtain rfl | hb := List.mem_cons.mp hb
    · exact le_refl _
    · exact hback b hb

theorem max?_concat (s : List ℚ) (x : ℚ) :
    (s ++ [x]).max? = some (s.max?.elim x fun m => max m x) := by
  cases s with
  | nil => rfl
  | cons y s => rw [List.cons_append, List.max?_cons', List.max?_cons', List.foldl_append]; rfl

theorem explicitWeights_concat (accept : List ParsedAccept) (a : ParsedAccept) (coding : Coding) :
    explicitWeights (accept ++ [a]) coding =
      explicitWeights accept coding ++ if a.encoding = coding then [a.q] else [] := by
  rw [explicitWeights, List.filter_append, List.map_append, explicitWeights]
  by_cases h : a.encoding = coding
  · simp [h]
  · simp [h]

theorem expressed_spec (accept : List ParsedAccept) :
    (∀ coding ≠ Coding.star,
      (expressed accept).explicit.get? coding = (explicitWeights accept coding).max?) ∧
    (expressed accept).starQ = (explicitWeights accept .star).getLast? := by
  induction accept using List.reverseRecOn with
  | nil => exact ⟨fun _ _ => rfl, rfl⟩
  | append_singleton accept a ih =>
    have hfold : expressed (accept ++ [a]) = (expressed accept).add a := by
      rw [expressed, List.foldl_append]
      rfl
    rw [hfold, Expressed.add]
    by_cases hstar : a.encoding = .star
    · rw [if_pos hstar]
      refine ⟨fun coding hne => ?_, ?_⟩
      · rw [explicitWeights_concat, if_neg (hstar ▸ hne.symm), List.append_nil]
        exact ih.1 coding hne
      · rw [explicitWeights_concat, if_pos hstar, List.getLast?_concat]
    · rw [if_neg hstar]
      refine ⟨fun coding hne => ?_, ?_⟩
      · rw [explicitWeights_concat]
        by_cases hsame : a.encoding = coding
        · rw [if_pos hsame, max?_concat, ← ih.1 coding hne, hsame]
          cases hget : (expressed accept).explicit.get? coding with
          | none => simp [JsMap.get?_set]
          | some m =>
            simp only [Option.all_some, decide_eq_true_eq, Option.elim_some]
            split
            · rename_i hlt
              rw [JsMap.get?_set, if_pos rfl, max_eq_right hlt.le]
            · rename_i hle
              rw [hget, max_eq_left (not_lt.mp hle)]
        · rw [if_neg hsame, List.append_nil, ← ih.1 coding hne]
          split
          · rw [JsMap.get?_set, if_neg fun heq => hsame heq.symm]
          · rfl
      · rw [explicitWeights_concat, if_neg hstar, List.append_nil, ← ih.2]
        split
        · rfl
        · rfl

theorem get_expressed (accept : List ParsedAccept) (enc : CompressionEncoding) :
    ((expressed accept).get enc).getD 0 = weight accept enc := by
  obtain ⟨hexplicit, hstar⟩ := expressed_spec accept
  rw [Expressed.get, hexplicit _ (by simp), hstar, weight]

/-! ## The encoding that is picked -/

theorem pickEncoding_eq (accept : List ParsedAccept)
    (serverPreferred runtimeSupported : List CompressionEncoding) :
    pickEncoding accept serverPreferred runtimeSupported =
      (serverPreferred.filter (· ∈ runtimeSupported)).find? (0 < weight accept ·) := by
  have hpositive (enc : CompressionEncoding) :
      ((expressed accept).get enc).any (0 < ·) = decide (0 < weight accept enc) := by
    rw [← get_expressed]
    cases (expressed accept).get enc with
    | none => rfl
    | some q => rfl
  rw [pickEncoding, List.find?_filter]
  split
  · rename_i hlength
    obtain rfl := List.length_eq_zero_iff.mp hlength
    symm
    rw [List.find?_eq_none]
    intro enc _
    have hzero : ¬ 0 < weight [] enc := by simp [weight, explicitWeights]
    simp [hzero]
  · simp only [hpositive, decide_eq_true_eq, Bool.decide_and]

def Unbeaten (score : CompressionEncoding → ℚ) (candidates : List CompressionEncoding) : Prop :=
  ∀ front enc back, candidates = front ++ enc :: back → (∀ e ∈ front, score e ≤ 0) →
    0 < score enc → ∀ e ∈ back, score e ≤ score enc

theorem respects_find (score : CompressionEncoding → ℚ) (candidates : List CompressionEncoding) :
    Respects score candidates (candidates.find? (0 < score ·)) ↔ Unbeaten score candidates := by
  cases hfind : candidates.find? (0 < score ·) with
  | none =>
    have hnone : ∀ e ∈ candidates, score e ≤ 0 := by
      intro e he
      have hnot := List.find?_eq_none.mp hfind e he
      simpa using hnot
    refine ⟨fun _ front enc back hsplit _ hpos => ?_, fun _ => hnone⟩
    have henc := hnone enc (by rw [hsplit]; simp)
    exact absurd henc (not_le.mpr hpos)
  | some chosen =>
    obtain ⟨hpos, front, back, hsplit, hfront⟩ := List.find?_eq_some_iff_append.mp hfind
    have hpos : 0 < score chosen := by simpa using hpos
    have hfront : ∀ e ∈ front, score e ≤ 0 := by
      intro e he
      have hnot := hfront e he
      simpa using hnot
    constructor
    · intro hrespects front' enc back' hsplit' hfront' henc e he
      have hfirst : candidates.find? (0 < score ·) = some enc := by
        rw [List.find?_eq_some_iff_append]
        refine ⟨by simpa using henc, front', back', hsplit', fun e' he' => ?_⟩
        simpa using hfront' e' he'
      obtain rfl := Option.some.inj (hfind.symm.trans hfirst)
      exact hrespects.2.le (by rw [hsplit']; simp [he])
    · intro hunbeaten
      refine ⟨hpos, front, back, hsplit, fun e he => (hfront e he).trans_lt hpos, ?_⟩
      exact hunbeaten front chosen back hsplit hfront hpos

/-! ## What is sent -/

def chosenEncoding (c : CompressionHook) (runtimeSupported : List CompressionEncoding)
    (req : Request) : Option CompressionEncoding :=
  pickEncoding (parseAcceptEncoding (req.fields.get? (js "accept-encoding"))) c.serverPreferred
    runtimeSupported

theorem encodedFields_encoding (fields : JsMap JsString JsString)
    (encoding : CompressionEncoding) (length : ℕ) :
    (encodedFields fields encoding length).get? (js "content-encoding") = some encoding.text := by
  have hlength : js "content-encoding" ≠ js "content-length" := by decide
  have hetag : js "content-encoding" ≠ js "etag" := by decide
  have hset : ((fields.set (js "content-encoding") encoding.text).set (js "content-length")
      (NumberText.write length)).get? (js "content-encoding") = some encoding.text := by
    rw [JsMap.get?_set, if_neg hlength, JsMap.get?_set, if_pos rfl]
  unfold encodedFields
  dsimp only
  split
  · exact hset
  · exact hset
  · rw [JsMap.get?_set, if_neg hetag]
    exact hset

theorem onSend_eq_some {c : CompressionHook} {runtimeSupported : List CompressionEncoding}
    {compress : CompressionEncoding → List UInt8 → List UInt8} {req : Request} {res r : Response}
    (h : (onSend c runtimeSupported compress req res).2 = some r) :
    ∃ enc original, chosenEncoding c runtimeSupported req = some enc ∧ res.body = some original ∧
      r.fields.get? (js "content-encoding") = some enc.text ∧
      r.body = some (if req.method = js "HEAD" then [] else compress enc original) := by
  unfold onSend at h
  dsimp only at h
  split at h
  · cases h
  rw [← chosenEncoding] at h
  cases hchosen : chosenEncoding c runtimeSupported req with
  | none =>
    rw [hchosen] at h
    cases h
  | some enc =>
    rw [hchosen] at h
    dsimp only at h
    split at h
    · cases h
    rename_i original hcaptured
    split at h
    · cases h
    have hbody : res.body = some original := by
      unfold captured at hcaptured
      split at hcaptured
      · cases hcaptured
      · exact (Option.filter_eq_some_iff.mp hcaptured).1
    obtain rfl := Option.some.inj h
    exact ⟨enc, original, rfl, hbody, encodedFields_encoding _ _ _, rfl⟩

/-- **Negotiation respects the client**, exactly when no candidate beats the first one that the
client accepts. -/
theorem picks_best_iff (c : CompressionHook) (runtimeSupported : List CompressionEncoding)
    (compress : CompressionEncoding → List UInt8 → List UInt8) (req : Request) (res : Response) :
    (Respects (weight (parseAcceptEncoding (req.fields.get? (js "accept-encoding"))))
        (c.serverPreferred.filter (· ∈ runtimeSupported))
        (chosenEncoding c runtimeSupported req) ↔
      Unbeaten (weight (parseAcceptEncoding (req.fields.get? (js "accept-encoding"))))
        (c.serverPreferred.filter (· ∈ runtimeSupported))) ∧
    ∀ r, (onSend c runtimeSupported compress req res).2 = some r →
      ∃ enc original, chosenEncoding c runtimeSupported req = some enc ∧
        res.body = some original ∧ r.fields.get? (js "content-encoding") = some enc.text ∧
        r.body = some (if req.method = js "HEAD" then [] else compress enc original) := by
  refine ⟨?_, fun r hr => onSend_eq_some hr⟩
  rw [chosenEncoding, pickEncoding_eq]
  exact respects_find _ _

/-! ## A header that is not respected -/

theorem toDouble_half : toDouble (1 / 2) = some (1 / 2) := by
  have hlog : Int.log 2 |(1 / 2 : ℚ)| = -1 := by
    have hpow : |(1 / 2 : ℚ)| = (2 : ℕ) ^ (-1 : ℤ) := by norm_num
    rw [hpow, Int.log_zpow one_lt_two]
  have hbit : lastBit (1 / 2) = -53 := by
    rw [lastBit, hlog]
    rfl
  have hnearest : nearest (1 / 2) = 1 / 2 := by
    have hint : (1 / 2 : ℚ) / 2 ^ (-53 : ℤ) = ((2 ^ 52 : ℤ) : ℚ) := by norm_num
    rw [nearest, hbit, hint, roundEven_int]
    norm_num
  have hbound : |(1 / 2 : ℚ)| < 2 ^ 1024 :=
    calc |(1 / 2 : ℚ)| < 1 := by norm_num
      _ ≤ 2 ^ 1024 := one_le_pow₀ (by norm_num)
  rw [toDouble, hnearest, if_pos hbound]

/-- A request with `Accept-Encoding: br;q=0.5, gzip`. -/
def halfRequest : Request where
  method := js "GET"
  fields := JsMap.empty.set (js "accept-encoding") (js "br;q=0.5, gzip")

def defaultHook : CompressionHook where
  minimumSize := 1024
  maxCompressibleBytes := 1048576
  serverPreferred := [.br, .gzip, .deflate]
  extraDeny := []
  extraAuthCookies := []

def halfAccept : List ParsedAccept :=
  [{ encoding := .coded .br, q := 1 / 2 }, { encoding := .coded .gzip, q := 1 }]

theorem weightParam_half : weightParam (js "q=0.5") = some (1 / 2) := by
  have htrim : trim (js "q=0.5") = js "q=0.5" := by decide
  have hvalue : (js "q=0.5").drop 2 = js "0.5" := by decide
  have hread : readUnsigned (numeralPrefix (js "0.5")) = some (1 / 2) := by
    have hwhole : numeralPrefix (js "0.5") = js "0.5" := by decide
    have hdigits : ((js "0.5").takeWhile fun u => !isExponentMark u) = js "0.5" := by decide
    have hnone : ((js "0.5").dropWhile fun u => !isExponentMark u) = [] := by decide
    have hpoint : (js "0.5").takeWhile (· ≠ Doubles.pointUnit) = js "0" ∧
        ((js "0.5").dropWhile (· ≠ Doubles.pointUnit)).drop 1 = js "5" := by
      decide
    have hvalue : decimal (js "0" ++ js "5") = 5 := by decide
    have hlength : (js "5").length = 1 := rfl
    rw [hwhole, readUnsigned, hdigits, hnone, hpoint.1, hpoint.2, if_pos (by decide), hvalue,
      hlength, readExponent, if_pos rfl]
    norm_num
  rw [weightParam, htrim, hvalue, if_pos (by decide), parseFloat, hread, Option.bind_some,
    toDouble_half, Option.filter_some, if_pos (by norm_num)]

theorem parse_half : parseAcceptEncoding (some (js "br;q=0.5, gzip")) = halfAccept := by
  have hpieces : splitOn comma (js "br;q=0.5, gzip") = [js "br;q=0.5", js " gzip"] := by decide
  have hbr : splitOn semicolon (trim (js "br;q=0.5")) = [js "br", js "q=0.5"] := by decide
  have hgzip : splitOn semicolon (trim (js " gzip")) = [js "gzip"] := by decide
  have hfirst : parseEntry (js "br;q=0.5") = some { encoding := .coded .br, q := 1 / 2 } := by
    rw [parseEntry, hbr, List.tail_cons, entryWeight, List.foldl_cons, weightParam_half]
    rfl
  have hsecond : parseEntry (js " gzip") = some { encoding := .coded .gzip, q := 1 } := by
    rw [parseEntry, hgzip]
    rfl
  show (splitOn comma (js "br;q=0.5, gzip")).filterMap parseEntry = _
  rw [hpieces, List.filterMap_cons_some hfirst, List.filterMap_cons_some hsecond,
    List.filterMap_nil, halfAccept]

/-- `br` is picked, although the client prefers `gzip`. -/
theorem half_not_respected :
    chosenEncoding defaultHook [.br, .gzip, .deflate] halfRequest = some .br ∧
      ¬ Respects (weight (parseAcceptEncoding (halfRequest.fields.get? (js "accept-encoding"))))
        (defaultHook.serverPreferred.filter (· ∈ [.br, .gzip, .deflate]))
        (chosenEncoding defaultHook [.br, .gzip, .deflate] halfRequest) := by
  have hfield : halfRequest.fields.get? (js "accept-encoding") = some (js "br;q=0.5, gzip") := by
    decide
  have hcandidates : defaultHook.serverPreferred.filter (· ∈ [.br, .gzip, .deflate]) =
      [.br, .gzip, .deflate] := by
    decide
  have hbr : weight halfAccept .br = 1 / 2 := by
    simp [weight, explicitWeights, halfAccept]
  have hgzip : weight halfAccept .gzip = 1 := by
    simp [weight, explicitWeights, halfAccept]
  have hchosen : chosenEncoding defaultHook [.br, .gzip, .deflate] halfRequest = some .br := by
    rw [chosenEncoding, hfield, parse_half, pickEncoding_eq, hcandidates, List.find?_cons_of_pos]
    simp [hbr]
  rw [hchosen, hfield, parse_half, hcandidates]
  refine ⟨rfl, fun hrespects => ?_⟩
  have hle := hrespects.2.le (b := .gzip) (by decide)
  rw [hbr, hgzip] at hle
  norm_num at hle

end Daloy.Http.Compression
