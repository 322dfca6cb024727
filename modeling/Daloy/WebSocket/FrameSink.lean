import Daloy.WebSocket.ClosePayload
import Mathlib.Data.Int.Notation

/-! # `FrameSink`: the streaming frame assembler

The class of `src/websocket.ts`, field by field. Pending input lives in `buf[off, off + len)`, the
fragments of a message in `msg[0, fragmentBytes)`. The event callbacks are taken to return
normally, so a call's effect on them is the list of events it emits; an exception that leaves a
method is returned next to the state it leaves behind.
-/

namespace Daloy.WebSocket
set_option autoImplicit false

open Daloy.Unicode

/-- The limits a sink is constructed with. -/
structure FrameSinkOptions where
  requireMask : Bool := false
  maxPayloadLength : Option ℕ := none
  maxFragments : Option ℕ := none

/-- The options `push` hands to `parseFrame`. -/
def FrameSinkOptions.frame (opts : FrameSinkOptions) : ParseFrameOptions :=
  ⟨opts.requireMask, opts.maxPayloadLength⟩

/-- `opts.maxFragments ?? DEFAULT_WS_MAX_MESSAGE_FRAGMENTS`. -/
def FrameSinkOptions.fragmentCap (opts : FrameSinkOptions) : ℕ :=
  opts.maxFragments.getD defaultWsMaxMessageFragments

/-- `MessageEvent.data`. -/
inductive MessageData
  | text (s : JsString)
  | binary (bytes : Bytes)
  deriving DecidableEq

/-- `encodeSendPayload`: the opcode and the payload; every buffer or view is its bytes. -/
def encodeSendPayload : MessageData → ℕ × Bytes
  | .text s => (WsOpcode.text, encodeText s)
  | .binary bytes => (WsOpcode.binary, bytes)

structure MessageEvent where
  data : MessageData
  isBinary : Bool
  deriving DecidableEq

/-- A call of one of the `FrameSinkEvents` callbacks. -/
inductive SinkEvent
  | onMessage (ev : MessageEvent)
  | onPing (payload : Bytes)
  | onPong (payload : Bytes)
  | onClose (code : ℕ) (reason : JsString)
  | onProtocolError (err : WebSocketProtocolError)
  deriving DecidableEq

structure FrameSink where
  buf : Bytes := []
  off : ℕ := 0
  len : ℕ := 0
  msg : Bytes := []
  fragmentOpcode : ℤ := -1
  fragmentBytes : ℕ := 0
  fragmentCount : ℕ := 0
  closed : Bool := false
  deriving DecidableEq

/-- What a method call leaves behind: the sink, the events it emitted and the exception that left
it, if any. -/
structure SinkResult where
  sink : FrameSink
  events : List SinkEvent
  threw : Option Thrown
  deriving DecidableEq

/-- `dst.set(src, pos)`, `none` for its `RangeError`. -/
def setBytes (dst : Bytes) (pos : ℕ) (src : Bytes) : Option Bytes :=
  if pos + src.length ≤ dst.length then
    some (dst.take pos ++ src ++ dst.drop (pos + src.length))
  else none

namespace FrameSink

def pending (sink : FrameSink) : Bytes := (sink.buf.drop sink.off).take sink.len

def release (sink : FrameSink) : FrameSink := { sink with buf := [], off := 0, len := 0, msg := [] }

/-- The part of `append` that makes room: nothing, compaction in place, or a larger buffer. -/
def makeRoom (sink : FrameSink) (need : ℕ) : Option FrameSink :=
  if sink.off + need > sink.buf.length then
    if need ≤ sink.buf.length ∧ sink.off ≥ sink.len then
      -- copyWithin(0, off, off + len)
      some { sink with buf := sink.pending ++ sink.buf.drop sink.pending.length, off := 0 }
    else
      (setBytes (List.replicate (max need (sink.buf.length * 2)) 0) 0 sink.pending).map fun next =>
        { sink with buf := next, off := 0 }
  else some sink

/-- `append(chunk)`, `none` for a `RangeError`. -/
def append (sink : FrameSink) (chunk : Bytes) : Option FrameSink :=
  let need := sink.len + chunk.length
  (sink.makeRoom need).bind fun roomy =>
    (setBytes roomy.buf (roomy.off + roomy.len) chunk).map fun buf =>
      { roomy with buf := buf, len := need }

def assertMessageSize (opts : FrameSinkOptions) (sink : FrameSink) (nextPayloadLength : ℕ) :
    Except WebSocketProtocolError FrameSink :=
  let nextTotal := sink.fragmentBytes + nextPayloadLength
  if opts.maxPayloadLength.any (nextTotal > ·) then
    .error (.payloadTooLarge (opts.maxPayloadLength.getD 0) nextTotal)
  else .ok { sink with fragmentBytes := nextTotal }

/-- The capacity `appendFragment` grows the message buffer to. -/
def fragmentCapacity (opts : FrameSinkOptions) (stop msgLength : ℕ) : ℕ :=
  let cap := max stop (msgLength * 2)
  match opts.maxPayloadLength with
  | some limit => if cap > limit then max stop limit else cap
  | none => cap

/-- `appendFragment(payload)`, `none` for a `RangeError`. -/
def appendFragment (opts : FrameSinkOptions) (sink : FrameSink) (payload : Bytes) :
    Option FrameSink :=
  let stop := sink.fragmentBytes
  let start := stop - payload.length
  let grown :=
    if stop > sink.msg.length then
      setBytes (List.replicate (fragmentCapacity opts stop sink.msg.length) 0) 0
        (sink.msg.take start)
    else some sink.msg
  (grown.bind fun msg => setBytes msg start payload).map fun msg => { sink with msg := msg }

def resetMessage (sink : FrameSink) : FrameSink :=
  { sink with msg := [], fragmentOpcode := -1, fragmentBytes := 0, fragmentCount := 0 }

/-- The end of `handle`: the reassembled message is delivered and the sink is ready for the next. -/
def deliver (sink : FrameSink) (joined : Bytes) : SinkResult :=
  if sink.fragmentOpcode = WsOpcode.binary then
    ⟨sink.resetMessage, [.onMessage ⟨.binary joined, true⟩], none⟩
  else
    match decodeText joined with
    | none => ⟨sink.resetMessage, [], some (.protocol (.protocol "Invalid UTF-8 in text message"))⟩
    | some text => ⟨sink.resetMessage, [.onMessage ⟨.text text, false⟩], none⟩

def handleControl (sink : FrameSink) (frame : ParsedFrame) : SinkResult :=
  if frame.opcode = WsOpcode.close then
    match decodeClosePayload frame.payload with
    | .error t => ⟨sink, [], some t⟩
    | .ok (code, reason) => ⟨{ sink with closed := true }.release, [.onClose code reason], none⟩
  else if frame.opcode = WsOpcode.ping then ⟨sink, [.onPing frame.payload], none⟩
  else ⟨sink, [.onPong frame.payload], none⟩

/-- `handle` on a data frame, once its opcode fits the message in progress. -/
def handleFragment (opts : FrameSinkOptions) (sink : FrameSink) (frame : ParsedFrame) :
    SinkResult :=
  let counted := { sink with fragmentCount := sink.fragmentCount + 1 }
  if counted.fragmentCount > opts.fragmentCap then
    ⟨counted, [], some (.protocol (.protocol
      ("Fragmented message exceeds " ++ toString opts.fragmentCap ++ " frames")))⟩
  else
    match assertMessageSize opts counted frame.payload.length with
    | .error e => ⟨counted, [], some (.protocol e)⟩
    | .ok sized =>
      if frame.fin = true ∧ sized.fragmentCount = 1 then sized.deliver frame.payload
      else
        let appended :=
          if frame.payload.length > 0 then appendFragment opts sized frame.payload else some sized
        match appended with
        | none => ⟨sized, [], some .rangeError⟩
        | some held =>
          if frame.fin = false then ⟨held, [], none⟩
          else
            held.deliver (if held.msg.length = held.fragmentBytes then held.msg
              else held.msg.take held.fragmentBytes)

def handle (opts : FrameSinkOptions) (sink : FrameSink) (frame : ParsedFrame) : SinkResult :=
  if frame.opcode &&& 0x8 ≠ 0 then handleControl sink frame
  else if frame.opcode = WsOpcode.continuation then
    if sink.fragmentOpcode = -1 then
      ⟨sink, [], some (.protocol (.protocol "Continuation frame without an initial data frame"))⟩
    else handleFragment opts sink frame
  else if sink.fragmentOpcode ≠ -1 then
    ⟨sink, [], some (.protocol (.protocol
      "New data frame received while a fragmented message is in progress"))⟩
  else handleFragment opts { sink with fragmentOpcode := frame.opcode } frame

/-- The sink after `parseFrame` unmasked a frame in place and `push` stepped over it. -/
def consume (sink : FrameSink) (view : Bytes) (consumed : ℕ) : FrameSink :=
  { sink with
    buf := sink.buf.take sink.off ++ view ++ sink.buf.drop (sink.off + sink.len)
    off := sink.off + consumed
    len := sink.len - consumed }

/-- The `while` loop of `push`; every turn consumes input, so `len + 1` turns are enough. -/
def pump (opts : FrameSinkOptions) : ℕ → FrameSink → SinkResult
  | 0, sink => ⟨sink, [], none⟩
  | turns + 1, sink =>
    if sink.len > 0 then
      match parseFrame sink.pending opts.frame with
      | .error e => ⟨sink, [], some (.protocol e)⟩
      | .ok none => ⟨sink, [], none⟩
      | .ok (some (frame, view)) =>
        let r := handle opts (sink.consume view frame.consumed) frame
        if r.threw.isSome || r.sink.closed then r
        else
          let rest := pump opts turns r.sink
          ⟨rest.sink, r.events ++ rest.events, rest.threw⟩
    else ⟨{ sink with buf := [], off := 0 }, [], none⟩

/-- The start of `push`: the chunk is buffered, by one copy when nothing is pending. -/
def fill (sink : FrameSink) (chunk : Bytes) : Option FrameSink :=
  if sink.len = 0 then some { sink with buf := chunk, off := 0, len := chunk.length }
  else sink.append chunk

def push (opts : FrameSinkOptions) (sink : FrameSink) (chunk : Bytes) : SinkResult :=
  if sink.closed then ⟨sink, [], none⟩
  else
    match sink.fill chunk with
    | none => ⟨sink, [], some .rangeError⟩
    | some filled =>
      let r := pump opts (filled.len + 1) filled
      match r.threw with
      | some (.protocol e) =>
        ⟨{ r.sink with closed := true }.release, r.events ++ [.onProtocolError e], none⟩
      | _ => r

/-- A sink fed the chunks one after the other: the sink at the end, all its events, and the
exceptions that left the calls. -/
def pushAll (opts : FrameSinkOptions) (sink : FrameSink) :
    List Bytes → FrameSink × List SinkEvent × List Thrown
  | [] => (sink, [], [])
  | chunk :: chunks =>
    let r := sink.push opts chunk
    let rest := pushAll opts r.sink chunks
    (rest.1, r.events ++ rest.2.1, r.threw.toList ++ rest.2.2)

end FrameSink

end Daloy.WebSocket
