import Daloy.WebSocket.FrameParser
import Daloy.WebSocket.FrameSink

/-! # What a frame sink is for: assembling messages out of frames

The receiver without buffers. Its state is the message in progress and nothing else; a frame
either goes on with it, ends the connection's input, or raises. `receiver` puts it behind the
incremental parser of frames, so that `drained` says what a byte stream means.
-/

namespace Daloy.WebSocket
set_option autoImplicit false

open Daloy.Parsing Daloy.Unicode

inductive Assembly
  | idle
  | gathering (opcode : ℕ) (bytes : Bytes) (count : ℕ)
  deriving DecidableEq

namespace Assembly

def opcode : Assembly → Option ℕ
  | idle => none
  | gathering opcode _ _ => some opcode

def bytes : Assembly → Bytes
  | idle => []
  | gathering _ bytes _ => bytes

def count : Assembly → ℕ
  | idle => 0
  | gathering _ _ count => count

def messageOpcode (a : Assembly) (frame : ParsedFrame) : Except WebSocketProtocolError ℕ :=
  match a.opcode with
  | none =>
    if frame.opcode = WsOpcode.continuation then
      .error (.protocol "Continuation frame without an initial data frame")
    else .ok frame.opcode
  | some opcode =>
    if frame.opcode = WsOpcode.continuation then .ok opcode
    else .error (.protocol "New data frame received while a fragmented message is in progress")

def checkLimits (opts : FrameSinkOptions) (count size : ℕ) : Except WebSocketProtocolError Unit :=
  if count > opts.fragmentCap then
    .error (.protocol ("Fragmented message exceeds " ++ toString opts.fragmentCap ++ " frames"))
  else if opts.maxPayloadLength.any (size > ·) then
    .error (.payloadTooLarge (opts.maxPayloadLength.getD 0) size)
  else .ok ()

def complete (opcode : ℕ) (bytes : Bytes) : Except WebSocketProtocolError SinkEvent :=
  if opcode = WsOpcode.binary then .ok (.onMessage ⟨.binary bytes, true⟩)
  else
    match decodeText bytes with
    | none => .error (.protocol "Invalid UTF-8 in text message")
    | some text => .ok (.onMessage ⟨.text text, false⟩)

def grow (opts : FrameSinkOptions) (a : Assembly) (opcode : ℕ) (frame : ParsedFrame) :
    Except WebSocketProtocolError (Assembly × List SinkEvent) :=
  match checkLimits opts (a.count + 1) (a.bytes ++ frame.payload).length with
  | .error e => .error e
  | .ok () =>
    if frame.fin = false then .ok (.gathering opcode (a.bytes ++ frame.payload) (a.count + 1), [])
    else (complete opcode (a.bytes ++ frame.payload)).map fun ev => (.idle, [ev])

/-- A data frame: the message in progress after it and the message it completes. -/
def receiveData (opts : FrameSinkOptions) (a : Assembly) (frame : ParsedFrame) :
    Except WebSocketProtocolError (Assembly × List SinkEvent) :=
  match a.messageOpcode frame with
  | .error e => .error e
  | .ok opcode => a.grow opts opcode frame

def report (a : Assembly) :
    Except WebSocketProtocolError (Assembly × List SinkEvent) → Reaction Assembly SinkEvent
  | .error e => .halt a [.onProtocolError e]
  | .ok (a', out) => .next a' out

/-- One frame. The `TypeError` of a close reason that is not UTF-8 leaves the receiver as it was. -/
def receive (opts : FrameSinkOptions) (a : Assembly) (frame : ParsedFrame) :
    Reaction Assembly SinkEvent :=
  if frame.opcode &&& 0x8 ≠ 0 then
    if frame.opcode = WsOpcode.close then
      match decodeClosePayload frame.payload with
      | .error (.protocol e) => .halt a [.onProtocolError e]
      | .error _ => .escape a
      | .ok (code, reason) => .halt a [.onClose code reason]
    else if frame.opcode = WsOpcode.ping then .next a [.onPing frame.payload]
    else .next a [.onPong frame.payload]
  else a.report (a.receiveData opts frame)

end Assembly

def receiver (opts : FrameSinkOptions) :
    Consumer ParsedFrame WebSocketProtocolError Assembly SinkEvent where
  receive := Assembly.receive opts
  refuse := fun _ e => [.onProtocolError e]

/-- What the bytes `xs` mean to a receiver with the message `a` in progress. -/
abbrev received (opts : FrameSinkOptions) (a : Assembly) (xs : Bytes) :
    Drained UInt8 Assembly SinkEvent :=
  drained (frameParser opts.frame) (receiver opts) a xs

end Daloy.WebSocket
