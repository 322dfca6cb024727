import Daloy.Foundations.Base64
import Daloy.Foundations.JsMap
import Daloy.Http.Responses

/-! # Captured responses

`captureResponse` and `buildReplayResponse` of `src/idempotency.ts`.

* `buildReplayResponse_capture`: what is replayed is what was captured.
-/

namespace Daloy.Idempotency
set_option autoImplicit false

open Daloy.Unicode Daloy.Fallible Daloy.Http

/-! ## Capture and replay -/

structure StoredIdempotentResponse where
  status : ℕ
  headers : List (JsString × JsString)
  body : JsString
  deriving DecidableEq

def neverReplayedHeaders : List JsString :=
  [setCookie, js "set-cookie2", js "age", js "connection", js "keep-alive",
    js "proxy-authenticate", js "proxy-authorization", js "te", js "trailer",
    js "transfer-encoding", js "upgrade", js "x-request-id"]

def captureResponse (res : Response) (maxBytes : ℕ) :
    Except CaptureError (Option StoredIdempotentResponse) := do
  match ← readResponseBodyUpTo res.body maxBytes with
  | none => return none
  | some buf => return some {
      status := res.status
      headers := res.headers.entries.filter fun e => e.1 ∉ neverReplayedHeaders
      body := if buf.length ≠ 0 then encodeBase64 buf else [] }

structure ReplayResponse where
  status : ℕ
  headers : JsMap JsString JsString
  body : List UInt8
  deriving DecidableEq

/-- `stored.body ? base64ToBytes(stored.body) : null`, `none` where it is no base64. -/
def replayBody (stored : StoredIdempotentResponse) : Option (List UInt8) :=
  if stored.body ≠ [] then decodeBase64 stored.body else some []

def buildReplayResponse (stored : StoredIdempotentResponse) (replayHeaderName : JsString) :
    Option ReplayResponse :=
  let headers := (stored.headers.filter fun e => e.1 ∉ neverReplayedHeaders).foldl
    (fun headers e => headers.set e.1 e.2) (∅ : JsMap JsString JsString)
  (replayBody stored).map fun body =>
    ⟨stored.status, headers.set replayHeaderName (js "true"), body⟩

/-! ## What is replayed -/

theorem captureResponse_eq {res : Response} {maxBytes : ℕ} {stored : StoredIdempotentResponse}
    (h : captureResponse res maxBytes = .ok (some stored)) :
    stored = {
      status := res.status
      headers := res.headers.entries.filter fun e => e.1 ∉ neverReplayedHeaders
      body := if res.bytes.length ≠ 0 then encodeBase64 res.bytes else [] } := by
  obtain ⟨buf, hread, h⟩ := bind_eq_ok.mp h
  cases buf with
  | none => simp [pure, Except.pure] at h
  | some buf =>
    rw [← readResponseBodyUpTo_eq hread]
    exact (Option.some.inj (Except.ok.inj h)).symm

theorem encodeBase64_ne_nil {bytes : List UInt8} (h : bytes ≠ []) : encodeBase64 bytes ≠ [] := by
  intro hnil
  have hdecode := decodeBase64_encode bytes
  rw [hnil] at hdecode
  exact h (Option.some.inj hdecode).symm

/-- **What is replayed is what was captured**: the status, the bytes of the body, and every header
field that may be replayed. -/
theorem buildReplayResponse_capture {res : Response} {maxBytes : ℕ}
    {stored : StoredIdempotentResponse} (replayHeaderName : JsString)
    (h : captureResponse res maxBytes = .ok (some stored)) :
    ∃ replay, buildReplayResponse stored replayHeaderName = some replay ∧
      replay.status = res.status ∧ replay.body = res.bytes ∧
      ∀ name, name ∉ neverReplayedHeaders → name ≠ replayHeaderName →
        replay.headers.get? name = res.headers.get? name := by
  have hstored := captureResponse_eq h
  have hbody : replayBody stored = some res.bytes := by
    rw [hstored, replayBody]
    dsimp only
    by_cases hempty : res.bytes = []
    · simp [hempty]
    · rw [if_pos (show res.bytes.length ≠ 0 by simpa using hempty),
        if_pos (encodeBase64_ne_nil hempty), decodeBase64_encode]
  refine ⟨_, by rw [buildReplayResponse, hbody]; rfl, by rw [hstored], rfl, ?_⟩
  intro name hname hmarker
  rw [JsMap.get?_set, if_neg hmarker, hstored]
  dsimp only
  rw [List.filter_filter, JsMap.get?_setAll]
  · simp only [Bool.and_self, JsMap.get?_empty, Option.or_none, ResponseHeaders.get?,
      List.find?_filter]
    congr 2
    funext e
    by_cases he : e.1 = name <;> simp [he, hname]
  · refine List.Nodup.sublist (List.Sublist.map _ ?_) res.headers.distinct
    have hfilter : res.headers.entries.filter (fun e => decide (e.1 ∉ neverReplayedHeaders) &&
          decide (e.1 ∉ neverReplayedHeaders)) =
        (res.headers.entries.filter fun e => e.1 ≠ setCookie).filter
          fun e => e.1 ∉ neverReplayedHeaders := by
      rw [List.filter_filter]
      congr 1
      funext e
      by_cases he : e.1 = setCookie <;> simp [he, neverReplayedHeaders]
    rw [hfilter]
    exact List.filter_sublist

end Daloy.Idempotency
