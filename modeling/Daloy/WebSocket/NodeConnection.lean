import Daloy.WebSocket.FrameSink

/-! # `NodeWebSocketConnection`

The connection class of `src/adapters/node.ts`, as a machine. A method runs up to the next callback
of the application; what it has still to do waits on a stack, and the application may call the
connection again before its callback returns. Whatever comes from outside is part of the step: the
chunks, the answers of the socket and of the schema, how callbacks end.
-/

namespace Daloy.WebSocket
set_option autoImplicit false

open Daloy.Unicode

inductive ReadyState
  | connecting
  | «open»
  | closing
  | closed
  deriving DecidableEq

/-- `readyState >= WS_READY_STATE.CLOSING`. -/
def ReadyState.atLeastClosing : ReadyState → Bool
  | .closing | .closed => true
  | _ => false

/-- The argument of `error()`: a protocol error, the error of the socket, or what a callback
threw. -/
inductive HandlerError
  | protocol (e : WebSocketProtocolError)
  | socket
  | thrown
  deriving DecidableEq

/-- A call of one of the handler's callbacks. -/
inductive HandlerCall
  | «open»
  | message (ev : MessageEvent)
  | close (code : ℕ) (reason : JsString)
  | error (err : HandlerError)
  | drain
  deriving DecidableEq

/-- Which callbacks the handler has, and whether it has a `request.body` schema. -/
structure WebSocketHandler where
  definesOpen : Bool := true
  definesMessage : Bool := true
  definesClose : Bool := true
  definesError : Bool := true
  definesDrain : Bool := true
  hasBodySchema : Bool := false

def WebSocketHandler.defines (handler : WebSocketHandler) : HandlerCall → Bool
  | .open => handler.definesOpen
  | .message _ => handler.definesMessage
  | .close .. => handler.definesClose
  | .error _ => handler.definesError
  | .drain => handler.definesDrain

/-- The route's options that the connection reads. -/
structure NormalizedWebSocketOptions where
  maxPayloadLength : ℕ
  backpressureLimit : ℕ
  closeOnBackpressureLimit : Bool

def NormalizedWebSocketOptions.sink (options : NormalizedWebSocketOptions) : FrameSinkOptions :=
  { requireMask := true, maxPayloadLength := some options.maxPayloadLength }

structure ConnectionConfig where
  handler : WebSocketHandler
  options : NormalizedWebSocketOptions

/-! ## Message validation -/

/-- `WS_INVALID_JSON`, `WS_SCHEMA_FAILED`, `WS_BINARY_REFUSED`. -/
inductive MessageRefusal
  | invalidJson
  | schemaFailed
  | binaryRefused
  deriving DecidableEq

def MessageRefusal.code : MessageRefusal → ℕ
  | .invalidJson | .schemaFailed => WsCloseCode.invalidPayload
  | .binaryRefused => WsCloseCode.unsupportedData

def MessageRefusal.reason : MessageRefusal → String
  | .invalidJson => "invalid JSON message"
  | .schemaFailed => "message failed schema validation"
  | .binaryRefused => "binary messages are not accepted"

/-- `WebSocketMessageValidation`, without the validated value. -/
inductive WebSocketMessageValidation
  | ok
  | refused (refusal : MessageRefusal)
  deriving DecidableEq

/-- `validateWebSocketMessage`: binary messages never reach the schema, whose answer may be a
promise (`none`). -/
def validateWebSocketMessage (ev : MessageEvent) (schema : Option WebSocketMessageValidation) :
    Option WebSocketMessageValidation :=
  if ev.isBinary then some (.refused .binaryRefused) else schema

/-! ## The connection -/

/-- What a synchronous piece of code has still to do. -/
inductive Frame
  /-- A callback of the application is running. -/
  | callback (call : HandlerCall)
  /-- The sink has an event to hand over. -/
  | sinkEvent (ev : SinkEvent)
  /-- `this.close(code, reason)`. -/
  | close (code : ℕ) (reason : JsString)
  /-- `this.socket.end()`. -/
  | endSocket
  /-- The state becomes CLOSED and the socket is destroyed. -/
  | terminate
  deriving DecidableEq

/-- Where the call of `open()` is. -/
inductive OpenPhase
  | notCalled
  | pending
  | settled
  deriving DecidableEq

structure NodeWebSocketConnection where
  readyState : ReadyState := .open
  closeHandled : Bool := false
  sink : FrameSink := {}
  /-- The gate waits for a validation, and these messages wait behind it. -/
  gateBusy : Bool := false
  gateQueue : List MessageEvent := []
  /-- The promises of `message()` that have not settled. -/
  messagePromises : ℕ := 0
  openPhase : OpenPhase := .notCalled
  stack : List Frame := []
  /-- The callbacks invoked, in order. -/
  calls : List HandlerCall := []
  written : List Bytes := []
  drainListeners : ℕ := 0
  ended : Bool := false
  destroyed : Bool := false
  deriving DecidableEq

/-- What `socket.write` answers, and `socket.writableLength` after it. -/
structure WriteAnswer where
  flushed : Bool := true
  writableLength : ℕ := 0

namespace NodeWebSocketConnection

variable (cfg : ConnectionConfig) (conn : NodeWebSocketConnection)

/-- `this.handler.call?.(...)`: the callback starts to run. -/
def invoke (call : HandlerCall) : NodeWebSocketConnection :=
  if cfg.handler.defines call then
    { conn with calls := conn.calls ++ [call], stack := .callback call :: conn.stack }
  else conn

def invokeError (err : HandlerError) : NodeWebSocketConnection := conn.invoke cfg (.error err)

/-- `_invokeMessage(data, isBinary, body)` up to its first `await`. -/
def invokeMessage (ev : MessageEvent) : NodeWebSocketConnection := conn.invoke cfg (.message ev)

def fireClose (code : ℕ) (reason : JsString) : NodeWebSocketConnection :=
  if conn.closeHandled then conn
  else { conn with closeHandled := true }.invoke cfg (.close code reason)

def terminate : NodeWebSocketConnection := { conn with readyState := .closed, destroyed := true }

def andThen (frames : List Frame) : NodeWebSocketConnection :=
  { conn with stack := frames ++ conn.stack }

/-- `_writeFrame(opcode, payload)`; above the limit it goes on with `this.close(...)`. -/
def writeFrame (answer : WriteAnswer) (opcode : ℕ) (payload : Bytes) :
    NodeWebSocketConnection × Option WebSocketProtocolError :=
  match encodeFrame { opcode, payload } with
  | .error e => (conn, some e)
  | .ok frame =>
    let sent := { conn with
      written := conn.written ++ [frame]
      drainListeners := if answer.flushed then conn.drainListeners else conn.drainListeners + 1 }
    if cfg.options.closeOnBackpressureLimit = true ∧ sent.readyState = .open ∧
        answer.writableLength > cfg.options.backpressureLimit then
      (sent.andThen [.close WsCloseCode.messageTooBig (js "backpressure limit exceeded")], none)
    else (sent, none)

/-- `close(code, reason)`: an exception of `encodeClosePayload` leaves the state CLOSING. -/
def close (answer : WriteAnswer) (code : ℕ) (reason : JsString) :
    NodeWebSocketConnection × Option WebSocketProtocolError :=
  if conn.readyState.atLeastClosing then (conn, none)
  else
    let closing := { conn with readyState := .closing }
    match encodeClosePayload code reason with
    | .error e => (closing, some e)
    | .ok payload =>
      match closing.writeFrame cfg answer WsOpcode.close payload with
      | (closing, some e) => (closing, some e)
      | (sent, none) => ((sent.andThen [.endSocket]).fireClose cfg code reason, none)

def send (answer : WriteAnswer) (data : MessageData) :
    NodeWebSocketConnection × Option WebSocketProtocolError :=
  if conn.readyState ≠ .open then (conn, none)
  else conn.writeFrame cfg answer (encodeSendPayload data).1 (encodeSendPayload data).2

/-- `_controlFrame(opcode, data)`: `ping` and `pong`. -/
def controlFrame (answer : WriteAnswer) (opcode : ℕ) (data : Option MessageData) :
    NodeWebSocketConnection × Option WebSocketProtocolError :=
  if conn.readyState ≠ .open then (conn, none)
  else
    let payload := (data.map fun d => (encodeSendPayload d).2).getD []
    if payload.length > wsMaxControlPayload then
      (conn, some (.protocol "Control frame payload exceeds 125 bytes"))
    else conn.writeFrame cfg answer opcode payload

/-! ## Messages -/

/-- The `deliver` callback of the gate. -/
def deliver (result : WebSocketMessageValidation) (ev : MessageEvent) : NodeWebSocketConnection :=
  if conn.readyState ≠ .open then conn
  else
    match result with
    | .refused refusal => conn.andThen [.close refusal.code (js refusal.reason)]
    | .ok => conn.invokeMessage cfg ev

/-- `WebSocketMessageGate.push`. -/
def gatePush (schema : Option WebSocketMessageValidation) (ev : MessageEvent) :
    NodeWebSocketConnection :=
  if conn.gateBusy then { conn with gateQueue := conn.gateQueue ++ [ev] }
  else
    match validateWebSocketMessage ev schema with
    | some result => conn.deliver cfg result ev
    | none => { conn with gateBusy := true, gateQueue := [ev] }

def dispatchMessage (schema : Option WebSocketMessageValidation) (ev : MessageEvent) :
    NodeWebSocketConnection :=
  if cfg.handler.hasBodySchema then conn.gatePush cfg schema ev else conn.invokeMessage cfg ev

/-! ## Events of the sink and of the socket -/

/-- The `onClose` callback of the sink. -/
def onClose (answer : WriteAnswer) (code : ℕ) (reason : JsString) : NodeWebSocketConnection :=
  let echoed :=
    if conn.readyState = .open then
      let closing := { conn with readyState := .closing }
      if code = WsCloseCode.noStatusReceived then
        (closing.writeFrame cfg answer WsOpcode.close []).1
      else
        match encodeClosePayload code reason with
        | .error _ => closing
        | .ok payload => (closing.writeFrame cfg answer WsOpcode.close payload).1
    else conn
  ({ echoed with readyState := .closed }.andThen [.endSocket]).fireClose cfg code reason

/-- The `onProtocolError` callback of the sink: `error()` first, then `this.close(...)`. -/
def onProtocolError (err : WebSocketProtocolError) : NodeWebSocketConnection :=
  let code :=
    match err with
    | .payloadTooLarge .. => WsCloseCode.messageTooBig
    | .protocol _ => WsCloseCode.protocolError
  (conn.andThen [.close code (js err.message)]).invokeError cfg (.protocol err)

def onSinkEvent (answer : WriteAnswer) (schema : Option WebSocketMessageValidation) :
    SinkEvent → NodeWebSocketConnection
  | .onMessage ev => conn.dispatchMessage cfg schema ev
  | .onPing payload => (conn.writeFrame cfg answer WsOpcode.pong payload).1
  | .onPong _ => conn
  | .onClose code reason => conn.onClose cfg answer code reason
  | .onProtocolError err => conn.onProtocolError cfg err

/-- `_ingest(chunk)`. The sink is not called back into, so its events can be handed over after
`push` has run. -/
def ingest (chunk : Bytes) : NodeWebSocketConnection :=
  if conn.readyState = .closed then conn
  else
    let r := conn.sink.push cfg.options.sink chunk
    { conn with sink := r.sink }.andThen (r.events.map .sinkEvent)

def handleSocketClose : NodeWebSocketConnection :=
  { conn with readyState := .closed }.fireClose cfg WsCloseCode.abnormalClosure []

def handleSocketError : NodeWebSocketConnection :=
  if conn.closeHandled = true ∨ conn.readyState = .closed then conn.terminate
  else (conn.andThen [.terminate]).invokeError cfg .socket

end NodeWebSocketConnection

/-! ## Steps -/

inductive ConnectionCall
  | send (data : MessageData)
  | close (code : ℕ) (reason : JsString)
  | ping (data : Option MessageData)
  | pong (data : Option MessageData)
  | terminate

/-- How a callback ends: it returns, throws, or returns a promise. -/
inductive CallbackEnd
  | returned
  | threw
  | promised
  deriving DecidableEq

inductive ConnectionStep
  /-- The application calls the connection, in a callback or between events (so does the idle
  timer). -/
  | call (c : ConnectionCall) (answer : WriteAnswer)
  /-- The running callback ends. -/
  | callbackEnds (how : CallbackEnd)
  /-- The connection goes on with what is on top of its stack. -/
  | resume (answer : WriteAnswer) (schema : Option WebSocketMessageValidation)
  | callOpen
  | openSettles (rejected : Bool)
  | messageSettles (rejected : Bool)
  | chunk (bytes : Bytes)
  | socketClose
  | socketError
  | socketDrain
  /-- The schema's promise for the first waiting message settles. -/
  | validated (result : WebSocketMessageValidation)
  | gateIdle

namespace NodeWebSocketConnection

/-- Application code can run: nothing of the connection is running, or a callback is. -/
def applicationRuns (conn : NodeWebSocketConnection) : Bool :=
  match conn.stack with
  | [] | .callback _ :: _ => true
  | _ => false

variable (cfg : ConnectionConfig)

def called (conn : NodeWebSocketConnection) (answer : WriteAnswer) :
    ConnectionCall → NodeWebSocketConnection
  | .send data => (conn.send cfg answer data).1
  | .close code reason => (conn.close cfg answer code reason).1
  | .ping data => (conn.controlFrame cfg answer WsOpcode.ping data).1
  | .pong data => (conn.controlFrame cfg answer WsOpcode.pong data).1
  | .terminate => conn.terminate

/-- The code behind a callback that has ended; only `message()` and `open()` pass their exceptions
on to `error()`. -/
def callbackEnded (conn : NodeWebSocketConnection) (how : CallbackEnd) :
    HandlerCall → NodeWebSocketConnection
  | .message _ =>
    match how with
    | .returned => conn
    | .threw => conn.invokeError cfg .thrown
    | .promised => { conn with messagePromises := conn.messagePromises + 1 }
  | .open =>
    match how with
    | .returned => conn
    | .threw => (conn.andThen [.terminate]).invokeError cfg .thrown
    | .promised => { conn with openPhase := .pending }
  | _ => conn

def resumed (conn : NodeWebSocketConnection) (answer : WriteAnswer)
    (schema : Option WebSocketMessageValidation) : Frame → Option NodeWebSocketConnection
  | .callback _ => none
  | .sinkEvent ev => some (conn.onSinkEvent cfg answer schema ev)
  | .close code reason => some (conn.close cfg answer code reason).1
  | .endSocket => some { conn with ended := true }
  | .terminate => some conn.terminate

/-- One step; `none` when it cannot be taken where the connection stands. -/
def step (conn : NodeWebSocketConnection) : ConnectionStep → Option NodeWebSocketConnection
  | .call c answer => if conn.applicationRuns then some (conn.called cfg answer c) else none
  | .callbackEnds how =>
    match conn.stack with
    | .callback call :: rest => some ({ conn with stack := rest }.callbackEnded cfg how call)
    | _ => none
  | .resume answer schema =>
    match conn.stack with
    | frame :: rest => { conn with stack := rest }.resumed cfg answer schema frame
    | [] => none
  | .callOpen =>
    if conn.stack = [] ∧ conn.openPhase = .notCalled then
      some ({ conn with openPhase := .settled }.invoke cfg .open)
    else none
  | .openSettles rejected =>
    if conn.stack = [] ∧ conn.openPhase = .pending then
      let settled := { conn with openPhase := .settled }
      some (if rejected then (settled.andThen [.terminate]).invokeError cfg .thrown else settled)
    else none
  | .messageSettles rejected =>
    if conn.stack = [] ∧ conn.messagePromises > 0 then
      let settled := { conn with messagePromises := conn.messagePromises - 1 }
      some (if rejected then settled.invokeError cfg .thrown else settled)
    else none
  | .chunk bytes => if conn.stack = [] then some (conn.ingest cfg bytes) else none
  | .socketClose => if conn.stack = [] then some (conn.handleSocketClose cfg) else none
  | .socketError => if conn.stack = [] then some (conn.handleSocketError cfg) else none
  | .socketDrain =>
    if conn.stack = [] ∧ conn.drainListeners > 0 then
      some ({ conn with drainListeners := conn.drainListeners - 1 }.invoke cfg .drain)
    else none
  | .validated result =>
    match conn.stack, conn.gateQueue with
    | [], ev :: waiting =>
      (validateWebSocketMessage ev (some result)).map fun result =>
        { conn with gateQueue := waiting }.deliver cfg result ev
    | _, _ => none
  | .gateIdle =>
    if conn.stack = [] ∧ conn.gateBusy = true ∧ conn.gateQueue = [] then
      some { conn with gateBusy := false }
    else none

end NodeWebSocketConnection

end Daloy.WebSocket
