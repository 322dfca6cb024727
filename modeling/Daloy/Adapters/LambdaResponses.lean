import Daloy.Foundations.Encodings
import Daloy.Foundations.TextDecoding
import Daloy.Foundations.UrlStandard
import Daloy.Http.Headers
import Daloy.Http.Responses
import Mathlib.Data.List.Find
import Mathlib.Data.List.Infix

/-! # Lambda responses

The two ways `src/adapters/lambda.ts` hands a response to the platform.

* `responseToLambda`: the response as one object, its body as text or in Base64.
* `StreamRun.step`: `streamLambdaResponse` as a machine; the stream accepts a chunk or asks to wait.
* `written_exact`: what was streamed at the end is the body, in every run.
-/

namespace Daloy.Adapters.Lambda
set_option autoImplicit false

open Daloy.Unicode Daloy.Http

/-! ## Header fields -/

/-- The values of `set-cookie`, in order. -/
def getSetCookie (headers : ResponseHeaders) : List JsString :=
  (headers.entries.filter fun e => toLowerCase e.1 = setCookie).map Prod.snd

/-- The one text of all cookies, where the platform has no `getSetCookie`. -/
def cookieFallback (headers : ResponseHeaders) : List JsString :=
  match getSetCookie headers with
  | [] => []
  | values =>
    let cookie := (js ", ").intercalate values
    if cookie = [] then [] else [cookie]

def protoKey : JsString := js "__proto__"

/-- `object[key] = text`. -/
def setMember (object : JsMap JsString JsString) (key text : JsString) : JsMap JsString JsString :=
  if key = protoKey then object else object.set key text

/-- The single-value fields and the cookies; `native` where `getSetCookie` is a function. -/
def responseHeaders (native : Bool) (res : Response) : JsMap JsString JsString × List JsString :=
  let cookies := if native then getSetCookie res.headers else cookieFallback res.headers
  (res.headers.entries.foldl
    (fun headers e => if toLowerCase e.1 ≠ setCookie then setMember headers e.1 e.2 else headers) ∅,
    cookies)

/-! ## One object -/

/-- `LambdaResponse`, of either version. -/
structure LambdaResponse where
  statusCode : ℕ
  headers : JsMap JsString JsString
  body : JsString
  isBase64Encoded : Bool
  cookies : Option (List JsString) := none
  multiValueHeaders : List (JsString × List JsString) := []

def isLineTerminator (u : UInt16) : Bool := u ∈ [0x0A, 0x0D, 0x2028, 0x2029]

/-- What follows `application/` in a text type. -/
def isTextSubtype (subtype : JsString) : Bool :=
  [js "json", js "xml", js "javascript", js "x-www-form-urlencoded"].any (·.isPrefixOf subtype) ||
    [js "+json", js "+xml"].any (· <:+: subtype.takeWhile fun u => !isLineTerminator u)

def isTextType (contentType : JsString) : Bool :=
  let lower := UrlStandard.lowerAscii contentType
  (js "text/").isPrefixOf lower ||
    ((js "application/").isPrefixOf lower && isTextSubtype (lower.drop 12))

/-- All bytes of a body, `none` where reading it fails. -/
def readBody : Option Body → Option (List UInt8)
  | none => some []
  | some body => if body.used = false ∧ body.ending = .closed then some body.chunks.flatten else none

def contentTypeOf (res : Response) : JsString := (res.headers.get? (js "content-type")).getD []

def encodeBody (isText : Bool) (buf : List UInt8) : JsString × Bool :=
  if 0 < buf.length then if isText then (decodeLossy buf, false) else (encodeBase64 buf, true)
  else ([], false)

def responseToLambda (native : Bool) (res : Response) (useV2Response : Bool) :
    Option LambdaResponse :=
  (readBody res.body).map fun buf =>
    let (headers, cookies) := responseHeaders native res
    let (body, isBase64Encoded) := encodeBody (isTextType (contentTypeOf res)) buf
    let out : LambdaResponse := { statusCode := res.status, headers, body, isBase64Encoded }
    if cookies = [] then out
    else if useV2Response then { out with cookies := some cookies }
    else { out with multiValueHeaders := [(setCookie, cookies)] }

/-! ## A stream -/

structure LambdaStreamMetadata where
  statusCode : ℕ
  headers : JsMap JsString JsString
  multiValueHeaders : List (JsString × List JsString) := []

/-- `streamLambdaResponse` on its way: the chunks that are to be read, those that were written,
whether it waits for `drain`, whether it ended the stream and whether it threw. -/
structure StreamRun where
  metadata : LambdaStreamMetadata
  remaining : List (List UInt8)
  ending : StreamEnd
  written : List (List UInt8) := []
  waiting : Bool := false
  ended : Bool := false
  failed : Bool := false

/-- A turn of the loop, with what `write` answers; or an event of the stream. -/
inductive StreamEvent
  | turn (accepted : Bool)
  | drain
  | error

def StreamRun.start (native : Bool) (res : Response) : StreamRun :=
  let (headers, cookies) := responseHeaders native res
  let metadata : LambdaStreamMetadata :=
    { statusCode := res.status, headers
      multiValueHeaders := if cookies = [] then [] else [(setCookie, cookies)] }
  match res.body with
  | none => { metadata, remaining := [], ending := .closed }
  | some body =>
    { metadata, remaining := body.chunks, ending := body.ending, failed := body.used }

def StreamRun.step (s : StreamRun) : StreamEvent → StreamRun
  | .turn accepted =>
    if s.waiting ∨ s.ended ∨ s.failed then s
    else
      match s.remaining with
      | chunk :: rest =>
        { s with remaining := rest, written := s.written ++ [chunk], waiting := !accepted }
      | [] =>
        match s.ending with
        | .closed => { s with ended := true }
        | .errored => { s with failed := true }
  | .drain => { s with waiting := false }
  -- only `waitForDrain` listens
  | .error => if s.waiting then { s with waiting := false, failed := true } else s

def StreamRun.run (s : StreamRun) (events : List StreamEvent) : StreamRun :=
  events.foldl StreamRun.step s

/-- The events of a stream that takes every chunk, some of them after a wait. -/
def schedule (accepts : ℕ → Bool) (chunks : ℕ) : List StreamEvent :=
  ((List.range chunks).flatMap fun i =>
    if accepts i then [.turn true] else [.turn false, .drain]) ++ [.turn true]

/-! ## What is carried -/

/-- What arrives is the response: its status, its fields, its cookies in order, and its bytes. -/
structure Carries (res : Response) (statusCode : ℕ) (headers : JsMap JsString JsString)
    (cookies : List JsString) (bytes : Option (List UInt8)) : Prop where
  status : statusCode = res.status
  headers : ∀ name, headers.get? name =
    if toLowerCase name = setCookie then none else res.headers.get? name
  cookies : cookies = getSetCookie res.headers
  bytes : bytes = some res.bytes

def multiValues (fields : List (JsString × List JsString)) (name : JsString) : List JsString :=
  ((fields.find? fun e => e.1 = name).map Prod.snd).getD []

def LambdaResponse.Carries (out : LambdaResponse) (res : Response) : Prop :=
  Lambda.Carries res out.statusCode out.headers
    (out.cookies.getD (multiValues out.multiValueHeaders setCookie))
    (if out.isBase64Encoded then decodeBase64 out.body else some (encodeText out.body))

def StreamRun.Carries (s : StreamRun) (res : Response) : Prop :=
  Lambda.Carries res s.metadata.statusCode s.metadata.headers
    (multiValues s.metadata.multiValueHeaders setCookie) (some s.written.flatten)

def Delivers (res : Response) : Prop :=
  ∀ body ∈ res.body, body.used = false ∧ body.ending = .closed

def OneCookie (cookies : List JsString) : Prop :=
  cookies = [] ∨ ∃ cookie, cookie ≠ [] ∧ cookies = [cookie]

/-- What neither way can lose of the fields. -/
structure KeepsFields (native : Bool) (res : Response) : Prop where
  cookies : native = true ∨ OneCookie (getSetCookie res.headers)
  fields : ∀ e ∈ res.headers.entries, e.1 ≠ protoKey

/-- The responses that both ways carry: their fields are kept, and a text is UTF-8 without a byte
order mark in front. -/
structure Lossless (native : Bool) (res : Response) : Prop where
  fields : KeepsFields native res
  text : isTextType (contentTypeOf res) = true → UnmarkedUtf8 res.bytes

/-! ## The fields -/

theorem setMember_of_ne {key : JsString} (h : key ≠ protoKey) (object : JsMap JsString JsString)
    (text : JsString) : setMember object key text = object.set key text := if_neg h

def isSingle (e : JsString × JsString) : Bool := toLowerCase e.1 ≠ setCookie ∧ e.1 ≠ protoKey

theorem responseHeaders_fold (entries : List (JsString × JsString))
    (object : JsMap JsString JsString) :
    entries.foldl
      (fun headers e => if toLowerCase e.1 ≠ setCookie then setMember headers e.1 e.2 else headers)
      object = (entries.filter isSingle).foldl (fun headers e => headers.set e.1 e.2) object := by
  induction entries generalizing object with
  | nil => rfl
  | cons e entries ih =>
    rw [List.foldl_cons, ih, List.filter_cons]
    by_cases hcookie : toLowerCase e.1 ≠ setCookie
    · by_cases hproto : e.1 = protoKey
      · rw [if_pos hcookie, if_neg (by simp [isSingle, hproto]), setMember, if_pos hproto]
      · rw [if_pos hcookie, if_pos (by simp [isSingle, hproto, hcookie]), setMember_of_ne hproto,
          List.foldl_cons]
    · rw [if_neg hcookie, if_neg (by simp [isSingle, not_not.mp hcookie])]

theorem toLowerCase_setCookie : toLowerCase setCookie = setCookie := by decide

theorem single_nodup (headers : ResponseHeaders) :
    ((headers.entries.filter isSingle).map Prod.fst).Nodup := by
  refine List.Nodup.sublist (List.Sublist.map _ ?_) headers.distinct
  refine List.monotone_filter_right _ fun e he => ?_
  simp only [isSingle, ne_eq, Bool.decide_and, Bool.and_eq_true, decide_eq_true_eq] at he
  simp only [ne_eq, decide_eq_true_eq]
  intro hname
  exact he.1 (by rw [hname, toLowerCase_setCookie])

theorem get?_responseHeaders (native : Bool) (res : Response) (name : JsString) :
    (responseHeaders native res).1.get? name =
      if toLowerCase name = setCookie ∨ name = protoKey then none else res.headers.get? name := by
  have hobject : (responseHeaders native res).1 =
      (res.headers.entries.filter isSingle).foldl (fun headers e => headers.set e.1 e.2) ∅ :=
    responseHeaders_fold _ _
  rw [hobject, JsMap.get?_setAll _ (single_nodup res.headers), List.find?_filter,
    JsMap.get?_empty, Option.or_none]
  by_cases hname : toLowerCase name = setCookie ∨ name = protoKey
  · rw [if_pos hname, List.find?_eq_none.mpr, Option.map_none]
    intro e _
    simp only [isSingle, ne_eq, Bool.decide_and, Bool.and_eq_true, decide_eq_true_eq, not_and]
    rintro ⟨hcookie, hproto⟩ rfl
    obtain h | h := hname
    · exact hcookie h
    · exact hproto h
  · rw [if_neg hname, ResponseHeaders.get?]
    congr 1
    refine List.find?_congr fun e _ => ?_
    by_cases he : e.1 = name
    · subst he
      simp only [not_or] at hname
      simp [isSingle, hname.1, hname.2]
    · simp [he]

theorem fields_iff (native : Bool) (res : Response) :
    (∀ name, (responseHeaders native res).1.get? name =
      if toLowerCase name = setCookie then none else res.headers.get? name) ↔
      ∀ e ∈ res.headers.entries, e.1 ≠ protoKey := by
  constructor
  · intro h e he hproto
    have hname := h protoKey
    rw [get?_responseHeaders, if_pos (.inr rfl), if_neg (by decide), ResponseHeaders.get?] at hname
    have hnone := Option.map_eq_none_iff.mp hname.symm
    exact List.find?_eq_none.mp hnone e he (by simp [hproto])
  · intro h name
    rw [get?_responseHeaders]
    by_cases hcookie : toLowerCase name = setCookie
    · rw [if_pos (.inl hcookie), if_pos hcookie]
    · rw [if_neg hcookie]
      by_cases hproto : name = protoKey
      · rw [if_pos (.inr hproto), ResponseHeaders.get?, List.find?_eq_none.mpr, Option.map_none]
        intro e he
        simp [hproto, h e he]
      · rw [if_neg (by simp [hcookie, hproto])]

theorem cookieFallback_iff (headers : ResponseHeaders) :
    cookieFallback headers = getSetCookie headers ↔ OneCookie (getSetCookie headers) := by
  rw [cookieFallback, OneCookie]
  cases hcookies : getSetCookie headers with
  | nil => simp
  | cons first rest =>
    cases rest with
    | nil =>
      have hjoin : (js ", ").intercalate [first] = first := by simp [List.intercalate]
      dsimp only
      rw [hjoin]
      by_cases hempty : first = []
      · simp [hempty]
      · simp [hempty]
    | cons second rest =>
      have hlength : (if (js ", ").intercalate (first :: second :: rest) = [] then []
          else [(js ", ").intercalate (first :: second :: rest)]).length ≤ 1 := by
        split <;> simp
      constructor
      · intro h
        dsimp only at h
        rw [h] at hlength
        simp at hlength
      · simp

theorem cookies_iff (native : Bool) (res : Response) :
    (responseHeaders native res).2 = getSetCookie res.headers ↔
      native = true ∨ OneCookie (getSetCookie res.headers) := by
  cases native with
  | true => simp [responseHeaders]
  | false => simpa [responseHeaders] using cookieFallback_iff res.headers

/-! ## The body -/

theorem readBody_eq {res : Response} (h : Delivers res) : readBody res.body = some res.bytes := by
  rw [Response.bytes]
  cases hbody : res.body with
  | none => rfl
  | some body => rw [readBody, if_pos (h body hbody)]

def platformBytes (body : JsString × Bool) : Option (List UInt8) :=
  if body.2 then decodeBase64 body.1 else some (encodeText body.1)

theorem encodeBody_iff (isText : Bool) (buf : List UInt8) :
    platformBytes (encodeBody isText buf) = some buf ↔ (isText = true → UnmarkedUtf8 buf) := by
  rw [encodeBody]
  by_cases hbuf : 0 < buf.length
  · rw [if_pos hbuf]
    cases isText with
    | true => simp [platformBytes, encode_decode_iff]
    | false => simp [platformBytes, decodeBase64_encode]
  · obtain rfl : buf = [] := by
      simpa using hbuf
    simp only [List.length_nil, Nat.lt_irrefl, if_false]
    have hempty : UnmarkedUtf8 [] := ⟨[], by simp, rfl⟩
    exact ⟨fun _ _ => hempty, fun _ => rfl⟩

/-! ## The stream -/

/-- What every event keeps of a run. -/
structure StreamRun.Inv (res : Response) (metadata : LambdaStreamMetadata) (s : StreamRun) :
    Prop where
  metadata : s.metadata = metadata
  bytes : s.written.flatten ++ s.remaining.flatten = res.bytes
  ended : s.ended = true → s.remaining = []

theorem StreamRun.inv_start (native : Bool) (res : Response) :
    (start native res).Inv res (start native res).metadata := by
  rw [start]
  cases hbody : res.body with
  | none => exact ⟨rfl, by simp [Response.bytes, hbody], fun _ => rfl⟩
  | some body => exact ⟨rfl, by simp [Response.bytes, hbody], by simp⟩

theorem StreamRun.inv_step {res : Response} {metadata : LambdaStreamMetadata} {s : StreamRun}
    (h : s.Inv res metadata) (event : StreamEvent) : (s.step event).Inv res metadata := by
  cases event with
  | turn accepted =>
    rw [step]
    by_cases hidle : s.waiting ∨ s.ended ∨ s.failed
    · rw [if_pos hidle]
      exact h
    rw [if_neg hidle]
    split
    · rename_i chunk rest hremaining
      refine ⟨h.metadata, ?_, fun hended => absurd (.inr (.inl hended)) hidle⟩
      rw [← h.bytes, hremaining]
      simp
    · rename_i hremaining
      split
      · exact ⟨h.metadata, h.bytes, fun _ => hremaining⟩
      · exact ⟨h.metadata, h.bytes, h.ended⟩
  | drain => exact ⟨h.metadata, h.bytes, h.ended⟩
  | error =>
    rw [step]
    split
    · exact ⟨h.metadata, h.bytes, h.ended⟩
    · exact h

theorem StreamRun.inv_run {res : Response} {metadata : LambdaStreamMetadata} {s : StreamRun}
    (h : s.Inv res metadata) (events : List StreamEvent) : (s.run events).Inv res metadata := by
  induction events generalizing s with
  | nil => exact h
  | cons event events ih => exact ih (inv_step h event)

theorem written_exact (native : Bool) (res : Response) (events : List StreamEvent)
    (h : ((StreamRun.start native res).run events).ended = true) :
    ((StreamRun.start native res).run events).written.flatten = res.bytes := by
  have hinv := StreamRun.inv_run (StreamRun.inv_start native res) events
  rw [← hinv.bytes, hinv.ended h, List.flatten_nil, List.append_nil]

/-- A run that is about to read, with these chunks left. -/
structure StreamRun.Reading (s : StreamRun) (chunks : ℕ) : Prop where
  remaining : s.remaining.length = chunks
  ending : s.ending = .closed
  idle : s.waiting = false ∧ s.ended = false ∧ s.failed = false

theorem StreamRun.reading_chunk {s : StreamRun} {chunks : ℕ} (h : s.Reading (chunks + 1))
    (accepted : Bool) :
    (s.run (if accepted then [.turn true] else [.turn false, .drain])).Reading chunks := by
  obtain ⟨chunk, rest, hremaining⟩ := List.exists_cons_of_length_eq_add_one h.remaining
  have hlength : rest.length = chunks := by
    have := h.remaining
    rw [hremaining, List.length_cons] at this
    omega
  obtain ⟨hwaiting, hended, hfailed⟩ := h.idle
  have hturn : ∀ accepted, s.step (.turn accepted) =
      { s with remaining := rest, written := s.written ++ [chunk], waiting := !accepted } := by
    intro accepted
    rw [step, if_neg (by simp [hwaiting, hended, hfailed]), hremaining]
  cases accepted with
  | true =>
    rw [if_pos rfl, run, List.foldl_cons, List.foldl_nil, hturn]
    exact ⟨hlength, h.ending, rfl, hended, hfailed⟩
  | false =>
    rw [if_neg (by simp), run, List.foldl_cons, List.foldl_cons, List.foldl_nil, hturn]
    exact ⟨hlength, h.ending, rfl, hended, hfailed⟩

theorem StreamRun.reading_range {s : StreamRun} {accepts : ℕ → Bool} (indices : List ℕ)
    (h : s.Reading indices.length) :
    (s.run (indices.flatMap fun i =>
      if accepts i then [.turn true] else [.turn false, .drain])).Reading 0 := by
  induction indices generalizing s with
  | nil => exact h
  | cons i indices ih =>
    rw [List.flatMap_cons, run, List.foldl_append]
    exact ih (reading_chunk h (accepts i))

theorem schedule_ends {native : Bool} {res : Response} (h : Delivers res) (accepts : ℕ → Bool) :
    ((StreamRun.start native res).run
      (schedule accepts (StreamRun.start native res).remaining.length)).ended = true := by
  have hstart : (StreamRun.start native res).Reading
      (StreamRun.start native res).remaining.length := by
    rw [StreamRun.start]
    cases hbody : res.body with
    | none => exact ⟨rfl, rfl, rfl, rfl, rfl⟩
    | some body => exact ⟨rfl, (h body hbody).2, rfl, rfl, (h body hbody).1⟩
  generalize StreamRun.start native res = s at hstart
  have hread := @StreamRun.reading_range s accepts
    (List.range s.remaining.length) (by rwa [List.length_range])
  have hrun : s.run (schedule accepts s.remaining.length) =
      (s.run ((List.range s.remaining.length).flatMap fun i =>
        if accepts i then [.turn true] else [.turn false, .drain])).step (.turn true) := by
    rw [schedule, StreamRun.run, List.foldl_append]
    rfl
  rw [hrun]
  generalize s.run _ = t at hread
  obtain ⟨hwaiting, hended, hfailed⟩ := hread.idle
  rw [StreamRun.step, if_neg (by simp [hwaiting, hended, hfailed]),
    List.length_eq_zero_iff.mp hread.remaining, hread.ending]

/-! ## Both ways -/

theorem multiValues_cookies (cookies : List JsString) :
    multiValues (if cookies = [] then [] else [(setCookie, cookies)]) setCookie = cookies := by
  split
  · rename_i hnil
    rw [hnil]
    rfl
  · simp [multiValues]

theorem responseToLambda_eq {native : Bool} {res : Response} (h : Delivers res) (useV2 : Bool) :
    ∃ out, responseToLambda native res useV2 = some out ∧ out.statusCode = res.status ∧
      out.headers = (responseHeaders native res).1 ∧
      (out.cookies.getD (multiValues out.multiValueHeaders setCookie)) =
        (responseHeaders native res).2 ∧
      (if out.isBase64Encoded then decodeBase64 out.body else some (encodeText out.body)) =
        platformBytes (encodeBody (isTextType (contentTypeOf res)) res.bytes) := by
  rw [responseToLambda, readBody_eq h, Option.map_some]
  refine ⟨_, rfl, ?_⟩
  by_cases hcookies : (responseHeaders native res).2 = []
  · simp [hcookies, platformBytes, multiValues]
  · cases useV2 with
    | true => simp [hcookies, platformBytes]
    | false => simp [hcookies, platformBytes, multiValues]

theorem start_metadata (native : Bool) (res : Response) :
    (StreamRun.start native res).metadata =
      { statusCode := res.status, headers := (responseHeaders native res).1
        multiValueHeaders := if (responseHeaders native res).2 = [] then []
          else [(setCookie, (responseHeaders native res).2)] } := by
  rw [StreamRun.start]
  cases res.body with
  | none => rfl
  | some body => rfl

theorem stream_carries {native : Bool} {res : Response} (h : KeepsFields native res)
    {events : List StreamEvent}
    (hended : ((StreamRun.start native res).run events).ended = true) :
    ((StreamRun.start native res).run events).Carries res := by
  have hmetadata := (StreamRun.inv_run (StreamRun.inv_start native res) events).metadata
  have hbytes := written_exact native res events hended
  rw [StreamRun.Carries, hmetadata, start_metadata, multiValues_cookies, hbytes]
  exact ⟨rfl, (fields_iff native res).mpr h.fields, (cookies_iff native res).mpr h.cookies, rfl⟩

/-- Both ways hand the response on: either object carries it, the stream comes to an end whatever
it waits for, and once it has ended it carries the response. -/
structure SameResponse (native : Bool) (res : Response) : Prop where
  object : ∀ useV2, ∃ out, responseToLambda native res useV2 = some out ∧ out.Carries res
  ends : ∀ accepts, ((StreamRun.start native res).run
    (schedule accepts (StreamRun.start native res).remaining.length)).ended = true
  stream : ∀ events, ((StreamRun.start native res).run events).ended = true →
    ((StreamRun.start native res).run events).Carries res

theorem lossless_of_same {native : Bool} {res : Response} (h : Delivers res)
    (hsame : SameResponse native res) : Lossless native res := by
  obtain ⟨out, hout, hcarries⟩ := hsame.object true
  obtain ⟨out', hout', -, hheaders, hcookies, hbytes⟩ :=
    responseToLambda_eq h true
  obtain rfl : out = out' := Option.some.inj (hout.symm.trans hout')
  have hfields := hcarries.headers
  rw [hheaders] at hfields
  refine ⟨⟨(cookies_iff native res).mp (hcookies.symm.trans hcarries.cookies),
    (fields_iff native res).mp hfields⟩, ?_⟩
  exact (encodeBody_iff _ _).mp (hbytes.symm.trans hcarries.bytes)

theorem same_of_lossless {native : Bool} {res : Response} (h : Delivers res)
    (hlossless : Lossless native res) : SameResponse native res := by
  refine ⟨fun useV2 => ?_, schedule_ends h, fun _ => stream_carries hlossless.fields⟩
  obtain ⟨out, hout, hstatus, hheaders, hcookies, hbytes⟩ :=
    responseToLambda_eq h useV2
  refine ⟨out, hout, hstatus, ?_, ?_, ?_⟩
  · rw [hheaders]
    exact (fields_iff native res).mpr hlossless.fields.fields
  · rw [hcookies]
    exact (cookies_iff native res).mpr hlossless.fields.cookies
  · rw [hbytes]
    exact (encodeBody_iff _ _).mpr hlossless.text

/-- **The buffered and the streamed response are the response**, for one whose body can be read,
exactly when nothing of it is lost: the fields are kept, and a text is UTF-8 that no byte order mark
starts. -/
theorem lambda_responses {native : Bool} {res : Response} (h : Delivers res) :
    SameResponse native res ↔ Lossless native res :=
  ⟨lossless_of_same h, same_of_lossless h⟩

def greeting (bytes : List UInt8) : Response where
  status := 200
  headers := { entries := [(js "content-type", js "text/plain"), (js "set-cookie", js "a=1")] }
  body := some { chunks := [bytes, [0x68, 0x69]] }

theorem greeting_delivers (bytes : List UInt8) : Delivers (greeting bytes) := by
  rintro body hbody
  obtain rfl : _ = body := Option.some.inj hbody
  exact ⟨rfl, rfl⟩

theorem greeting_lossless : Lossless true (greeting []) where
  fields := ⟨.inl rfl, by decide⟩
  text := fun _ => ⟨['h', 'i'], by decide, by decide⟩

theorem lambda_responses_greeting : SameResponse true (greeting []) :=
  (@lambda_responses true (greeting []) (greeting_delivers [])).mpr greeting_lossless

theorem mark_lost :
    Delivers (greeting [0xEF, 0xBB, 0xBF]) ∧
    (responseToLambda true (greeting [0xEF, 0xBB, 0xBF]) true).map LambdaResponse.body =
      some (js "hi") ∧
    ((StreamRun.start true (greeting [0xEF, 0xBB, 0xBF])).run
      [.turn true, .turn false, .drain, .turn true]).written.flatten =
      [0xEF, 0xBB, 0xBF, 0x68, 0x69] ∧
    ¬ SameResponse true (greeting [0xEF, 0xBB, 0xBF]) := by
  refine ⟨greeting_delivers _, by decide, by decide, fun hsame => ?_⟩
  have htext := (lossless_of_same (greeting_delivers _) hsame).text (by decide)
  exact absurd ((encode_decode_iff _).mpr htext) (by decide)

end Daloy.Adapters.Lambda
