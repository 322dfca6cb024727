import Daloy.WebSocket.Frame

/-! # CLOSE frame payloads

`isValidWireCloseCode`, `encodeClosePayload` and `decodeClosePayload` of `src/websocket.ts`, and
the exceptions that the receiving side can raise.
-/

namespace Daloy.WebSocket
set_option autoImplicit false

open Daloy.Unicode

/-- An exception raised while bytes are received: a protocol error, the `TypeError` of a fatal
`TextDecoder`, or the `RangeError` of an out-of-range `Uint8Array.set`. -/
inductive Thrown
  | protocol (e : WebSocketProtocolError)
  | typeError
  | rangeError
  deriving DecidableEq

/-- Whether `code` may appear in a CLOSE frame on the wire. -/
def isValidWireCloseCode (code : ℕ) : Bool :=
  (1000 ≤ code && code ≤ 1014 && code ≠ 1004 && code ≠ 1005 && code ≠ 1006) ||
    (3000 ≤ code && code ≤ 4999)

def encodeClosePayload (code : ℕ) (reason : JsString) : Except WebSocketProtocolError Bytes :=
  if isValidWireCloseCode code = false then
    .error (.protocol ("Invalid close status code " ++ toString code))
  else
    let reasonBytes := encodeText reason
    if reasonBytes.length > wsMaxControlPayload - 2 then
      .error (.protocol "Close reason exceeds 123 bytes")
    else .ok (UInt8.ofNat ((code >>> 8) &&& 0xff) :: UInt8.ofNat (code &&& 0xff) :: reasonBytes)

def closeCode (payload : Bytes) : ℕ := (byteAt payload 0 <<< 8) ||| byteAt payload 1

/-- `decodeClosePayload`: the code and the reason, or the exception it raises. -/
def decodeClosePayload (payload : Bytes) : Except Thrown (ℕ × JsString) :=
  if payload.length = 0 then .ok (WsCloseCode.noStatusReceived, [])
  else if payload.length = 1 then
    .error (.protocol (.protocol "Close payload must be empty or ≥2 bytes"))
  else if isValidWireCloseCode (closeCode payload) = false then
    .error (.protocol (.protocol ("Invalid close status code " ++ toString (closeCode payload))))
  else
    match decodeText (payload.drop 2) with
    -- the decoder is not wrapped: its TypeError leaves the function as it is
    | none => .error .typeError
    | some reason => .ok (closeCode payload, reason)

/-- A close payload whose length and code are fine and whose reason is not UTF-8. -/
def BadCloseReason (payload : Bytes) : Prop :=
  2 ≤ payload.length ∧ isValidWireCloseCode (closeCode payload) = true ∧
    decodeUtf8 (payload.drop 2) = none

theorem decodeText_eq_none {bytes : Bytes} : decodeText bytes = none ↔ decodeUtf8 bytes = none := by
  rw [decodeText, Option.map_eq_none_iff]

theorem decodeClosePayload_eq_typeError {payload : Bytes} :
    decodeClosePayload payload = .error .typeError ↔ BadCloseReason payload := by
  unfold decodeClosePayload BadCloseReason
  split
  · next h => simp [h]
  split
  · next h => simp [h]
  split
  · next h => simp [h]
  · next h0 h1 hcode =>
    rw [← decodeText_eq_none]
    have h2 : 2 ≤ payload.length := by omega
    cases decodeText (payload.drop 2) with
    | none => simp [h2, hcode]
    | some reason => simp

theorem decodeClosePayload_ne_rangeError (payload : Bytes) :
    decodeClosePayload payload ≠ .error .rangeError := by
  unfold decodeClosePayload
  split
  · simp
  split
  · simp
  split
  · simp
  split <;> simp

end Daloy.WebSocket
