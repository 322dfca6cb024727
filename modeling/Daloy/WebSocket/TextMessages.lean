import Daloy.WebSocket.FrameRoundTrip
import Daloy.WebSocket.SinkChunks

/-! # Text messages on the wire

A text message leaves as the UTF-8 bytes of `encodeSendPayload`, cut into data frames with control
frames between them. `text_survives_iff`: whatever the cuts, the masks and the chunks, a fresh sink
emits the message it was given and the control frames in order exactly when the text does not start
with a byte order mark, which the decoder of the receiving side drops.
-/

namespace Daloy.WebSocket
set_option autoImplicit false

open Daloy.Parsing Daloy.Unicode FrameSink

/-! ## What is sent -/

/-- The frames around one message: its fragments and the control frames between them. -/
inductive Outbound
  | fragment (bytes : Bytes) (mask : Option MaskKey)
  | ping (payload : Bytes) (mask : Option MaskKey)
  | pong (payload : Bytes) (mask : Option MaskKey)

def fragments : List Outbound → List Bytes
  | [] => []
  | .fragment bytes _ :: rest => bytes :: fragments rest
  | .ping .. :: rest => fragments rest
  | .pong .. :: rest => fragments rest

/-- The frames as `encodeFrame` gets them: the first data frame carries the opcode of the message,
the later ones CONTINUATION, and the last one FIN. -/
def outboundFrames (opcode : ℕ) : List Outbound → List EncodeFrameOptions
  | [] => []
  | .fragment bytes mask :: rest =>
    { fin := fragments rest = [], opcode := opcode, payload := bytes, mask := mask } ::
      outboundFrames WsOpcode.continuation rest
  | .ping payload mask :: rest =>
    { opcode := WsOpcode.ping, payload := payload, mask := mask } :: outboundFrames opcode rest
  | .pong payload mask :: rest =>
    { opcode := WsOpcode.pong, payload := payload, mask := mask } :: outboundFrames opcode rest

/-- The events of a receiver that gets everything: the message at its last fragment. -/
def outboundEvents (message : SinkEvent) : List Outbound → List SinkEvent
  | [] => []
  | .fragment .. :: rest =>
    if fragments rest = [] then message :: outboundEvents message rest
    else outboundEvents message rest
  | .ping payload _ :: rest => .onPing payload :: outboundEvents message rest
  | .pong payload _ :: rest => .onPong payload :: outboundEvents message rest

theorem outboundEvents_injective {sent : List Outbound} (h : fragments sent ≠ [])
    {message message' : SinkEvent}
    (heq : outboundEvents message sent = outboundEvents message' sent) : message = message' := by
  induction sent with
  | nil => simp [fragments] at h
  | cons item rest ih =>
    cases item with
    | fragment bytes mask =>
      simp only [outboundEvents] at heq
      split at heq
      · exact (List.cons.inj heq).1
      · next hmore => exact ih hmore heq
    | ping payload mask | pong payload mask =>
      simp only [outboundEvents, List.cons.injEq, true_and] at heq
      exact ih h heq

/-! ## What is received -/

abbrev EncodedAs (frames : List EncodeFrameOptions) (encoded : List Bytes) : Prop :=
  List.Forall₂ (fun f bytes => encodeFrame f = .ok bytes) frames encoded

theorem encodeFrame_control_length {f : EncodeFrameOptions} {bytes : Bytes}
    (h : encodeFrame f = .ok bytes) (hctl : f.opcode &&& 0x0f &&& 0x8 ≠ 0) :
    f.payload.length ≤ wsMaxControlPayload := by
  unfold encodeFrame at h
  dsimp only at h
  split at h
  · simp at h
  · next hshort => exact Nat.le_of_not_lt fun hlong => hshort ⟨hctl, hlong⟩

theorem reaches_frame {opts : FrameSinkOptions} {a a' : Assembly} {f : EncodeFrameOptions}
    {bytes : Bytes} (out : List SinkEvent) (hf : Legal opts.frame f)
    (henc : encodeFrame f = .ok bytes)
    (hr : a.receive opts ⟨f.fin, f.opcode, f.payload, bytes.length⟩ = .next a' out)
    {tail xs : Bytes} {a'' : Assembly} {out' : List SinkEvent}
    (hrest : Reaches (frameParser opts.frame) (receiver opts) a' tail a'' xs out') :
    Reaches (frameParser opts.frame) (receiver opts) a (bytes ++ tail) a'' xs (out ++ out') := by
  refine .step (parseFrame_encodeFrame hf henc tail) hr ?_
  rwa [List.drop_left' rfl]

section Sending
variable {opts : FrameSinkOptions} {m : List Char}

/-- The limits leave room for the whole text. -/
structure Fits (opts : FrameSinkOptions) (m : List Char) : Prop where
  size : ∀ limit, opts.maxPayloadLength = some limit → (encodeUtf8 m).length ≤ limit
  safe : (encodeUtf8 m).length ≤ maxSafeInteger

/-- The message half received: `a` holds the fragments that are no longer to be sent. -/
structure Halfway (opts : FrameSinkOptions) (m : List Char) (a : Assembly) (opcode : ℕ)
    (sent : List Outbound) : Prop where
  started : (a = .idle ∧ opcode = WsOpcode.text) ∨
    ∃ bytes count, a = .gathering WsOpcode.text bytes count ∧ opcode = WsOpcode.continuation
  bytes : a.bytes ++ (fragments sent).flatten = encodeUtf8 m
  cap : a.count + (fragments sent).length ≤ opts.fragmentCap

theorem receive_ping (a : Assembly) (payload : Bytes) (n : ℕ) :
    a.receive opts ⟨true, WsOpcode.ping, payload, n⟩ = .next a [.onPing payload] := by
  unfold Assembly.receive
  dsimp only
  rw [if_pos (by decide), if_neg (by decide), if_pos rfl]

theorem receive_pong (a : Assembly) (payload : Bytes) (n : ℕ) :
    a.receive opts ⟨true, WsOpcode.pong, payload, n⟩ = .next a [.onPong payload] := by
  unfold Assembly.receive
  dsimp only
  rw [if_pos (by decide), if_neg (by decide), if_neg (by decide)]

theorem legal_control (opts : FrameSinkOptions) {f : EncodeFrameOptions} {bytes : Bytes}
    (hop : f.opcode = WsOpcode.ping ∨ f.opcode = WsOpcode.pong) (hfin : f.fin = true)
    (henc : encodeFrame f = .ok bytes) (hmask : opts.requireMask = true → f.mask.isSome = true) :
    Legal opts.frame f := by
  have hknown : f.opcode ∈ knownOpcodes := by rcases hop with h | h <;> rw [h] <;> decide
  have hctl : f.opcode &&& 0x0f &&& 0x8 ≠ 0 := by rcases hop with h | h <;> rw [h] <;> decide
  have hdata : f.opcode &&& 0x8 ≠ 0 := by rcases hop with h | h <;> rw [h] <;> decide
  have hshort := encodeFrame_control_length henc hctl
  refine ⟨hknown, fun _ => ⟨hfin, hshort⟩, ?_, fun h => absurd h hdata, hmask⟩
  unfold wsMaxControlPayload at hshort
  unfold maxSafeInteger
  omega

theorem reaches_controls {a : Assembly} {opcode : ℕ} {sent : List Outbound} {encoded : List Bytes}
    (hnone : fragments sent = [])
    (hmask : opts.requireMask = true → ∀ f ∈ outboundFrames opcode sent, f.mask.isSome = true)
    (henc : EncodedAs (outboundFrames opcode sent) encoded) (message : SinkEvent) :
    Reaches (frameParser opts.frame) (receiver opts) a encoded.flatten a []
      (outboundEvents message sent) := by
  induction sent generalizing encoded with
  | nil =>
    cases henc
    exact .refl a []
  | cons item rest ih =>
    cases item with
    | fragment bytes mask => simp [fragments] at hnone
    | ping payload mask =>
      cases henc with
      | cons hfirst hrest =>
        have hlater := ih hnone (fun hreq f hf => hmask hreq f (List.mem_cons_of_mem _ hf)) hrest
        have hlegal := legal_control opts (Or.inl rfl) rfl hfirst
          fun hreq => hmask hreq _ (List.mem_cons_self ..)
        exact reaches_frame _ hlegal hfirst (receive_ping a payload _) hlater
    | pong payload mask =>
      cases henc with
      | cons hfirst hrest =>
        have hlater := ih hnone (fun hreq f hf => hmask hreq f (List.mem_cons_of_mem _ hf)) hrest
        have hlegal := legal_control opts (Or.inr rfl) rfl hfirst
          fun hreq => hmask hreq _ (List.mem_cons_self ..)
        exact reaches_frame _ hlegal hfirst (receive_pong a payload _) hlater

theorem Halfway.legal {a : Assembly} {opcode : ℕ} {bytes : Bytes} {mask : Option MaskKey}
    {rest : List Outbound} (h : Halfway opts m a opcode (.fragment bytes mask :: rest))
    (hfits : Fits opts m) (hmask : opts.requireMask = true → mask.isSome = true) :
    Legal opts.frame
      { fin := fragments rest = [], opcode := opcode, payload := bytes, mask := mask } := by
  have hbytes : a.bytes ++ (bytes ++ (fragments rest).flatten) = encodeUtf8 m := h.bytes
  have hle : bytes.length ≤ (encodeUtf8 m).length := by
    rw [← hbytes]
    simp only [List.length_append]
    omega
  have hdata : opcode &&& 0x8 = 0 := by
    rcases h.started with ⟨-, rfl⟩ | ⟨_, _, -, rfl⟩ <;> rfl
  refine ⟨?_, fun hctl => absurd hdata hctl, ?_, fun _ limit hlimit => ?_, hmask⟩
  · dsimp only
    rcases h.started with ⟨-, rfl⟩ | ⟨_, _, -, rfl⟩ <;> decide
  · exact Nat.le_trans hle hfits.safe
  · exact Nat.le_trans hle (hfits.size limit hlimit)

theorem Halfway.next {a : Assembly} {opcode : ℕ} {bytes : Bytes} {mask : Option MaskKey}
    {rest : List Outbound} (h : Halfway opts m a opcode (.fragment bytes mask :: rest)) :
    Halfway opts m (.gathering WsOpcode.text (a.bytes ++ bytes) (a.count + 1))
      WsOpcode.continuation rest := by
  have hbytes : a.bytes ++ (bytes ++ (fragments rest).flatten) = encodeUtf8 m := h.bytes
  have hcount : a.count + ((fragments rest).length + 1) ≤ opts.fragmentCap := h.cap
  refine ⟨Or.inr ⟨_, _, rfl, rfl⟩, ?_, ?_⟩
  · rw [← hbytes]
    exact List.append_assoc ..
  · change a.count + 1 + (fragments rest).length ≤ opts.fragmentCap
    omega

theorem receive_fragment (hfits : Fits opts m) {a : Assembly} {opcode : ℕ} {bytes : Bytes}
    {mask : Option MaskKey} {rest : List Outbound}
    (h : Halfway opts m a opcode (.fragment bytes mask :: rest)) (n : ℕ) :
    a.receive opts ⟨fragments rest = [], opcode, bytes, n⟩ =
      if fragments rest = [] then .next .idle [.onMessage ⟨.text (utf16 (stripBom m)), false⟩]
      else .next (.gathering WsOpcode.text (a.bytes ++ bytes) (a.count + 1)) [] := by
  have hdata : opcode &&& 0x8 = 0 := by
    rcases h.started with ⟨-, rfl⟩ | ⟨_, _, -, rfl⟩ <;> rfl
  have hop : a.messageOpcode ⟨fragments rest = [], opcode, bytes, n⟩ = .ok WsOpcode.text := by
    rcases h.started with ⟨rfl, rfl⟩ | ⟨_, _, rfl, rfl⟩ <;> rfl
  have hbytes : a.bytes ++ (bytes ++ (fragments rest).flatten) = encodeUtf8 m := h.bytes
  have hcount : a.count + ((fragments rest).length + 1) ≤ opts.fragmentCap := h.cap
  have hle : (a.bytes ++ bytes).length ≤ (encodeUtf8 m).length := by
    rw [← hbytes]
    simp only [List.length_append]
    omega
  have hlimits : Assembly.checkLimits opts (a.count + 1) (a.bytes ++ bytes).length = .ok () := by
    unfold Assembly.checkLimits
    rw [if_neg (by omega), if_neg]
    cases hlimit : opts.maxPayloadLength with
    | none => simp
    | some limit =>
      have hsize := hfits.size limit hlimit
      rw [Option.any_some, decide_eq_true_eq]
      omega
  rw [Assembly.receive, if_neg (by simp [hdata]), Assembly.receiveData, hop]
  dsimp only
  rw [Assembly.grow, hlimits]
  dsimp only
  by_cases hlast : fragments rest = []
  · -- the last fragment: the bytes are those of the text
    have hjoined : a.bytes ++ bytes = encodeUtf8 m := by
      rw [← hbytes, hlast, List.flatten_nil, List.append_nil]
    simp only [hlast, decide_true, Bool.true_eq_false, if_false, if_true]
    rw [hjoined, Assembly.complete, if_neg (by decide), decodeText_encodeUtf8]
    rfl
  · simp only [hlast, decide_false, if_true, if_false]
    rfl

theorem reaches_message (hfits : Fits opts m) {a : Assembly} {opcode : ℕ} {sent : List Outbound}
    {encoded : List Bytes} (h : Halfway opts m a opcode sent) (hsome : fragments sent ≠ [])
    (hmask : opts.requireMask = true → ∀ f ∈ outboundFrames opcode sent, f.mask.isSome = true)
    (henc : EncodedAs (outboundFrames opcode sent) encoded) :
    Reaches (frameParser opts.frame) (receiver opts) a encoded.flatten .idle []
      (outboundEvents (.onMessage ⟨.text (utf16 (stripBom m)), false⟩) sent) := by
  induction sent generalizing a opcode encoded with
  | nil => simp [fragments] at hsome
  | cons item rest ih =>
    cases item with
    | ping payload mask =>
      cases henc with
      | cons hfirst hrest =>
        have hlater := ih ⟨h.started, h.bytes, h.cap⟩ hsome
          (fun hreq f hf => hmask hreq f (List.mem_cons_of_mem _ hf)) hrest
        have hlegal := legal_control opts (Or.inl rfl) rfl hfirst
          fun hreq => hmask hreq _ (List.mem_cons_self ..)
        exact reaches_frame _ hlegal hfirst (receive_ping a payload _) hlater
    | pong payload mask =>
      cases henc with
      | cons hfirst hrest =>
        have hlater := ih ⟨h.started, h.bytes, h.cap⟩ hsome
          (fun hreq f hf => hmask hreq f (List.mem_cons_of_mem _ hf)) hrest
        have hlegal := legal_control opts (Or.inr rfl) rfl hfirst
          fun hreq => hmask hreq _ (List.mem_cons_self ..)
        exact reaches_frame _ hlegal hfirst (receive_pong a payload _) hlater
    | fragment bytes mask =>
      cases henc with
      | @cons _ first _ _ hfirst hrest =>
        have hlegal := h.legal hfits fun hreq => hmask hreq _ (List.mem_cons_self ..)
        have hmask' : opts.requireMask = true →
            ∀ f ∈ outboundFrames WsOpcode.continuation rest, f.mask.isSome = true :=
          fun hreq f hf => hmask hreq f (List.mem_cons_of_mem _ hf)
        have hr := receive_fragment hfits h first.length
        by_cases hlast : fragments rest = []
        · rw [if_pos hlast] at hr
          rw [outboundEvents, if_pos hlast]
          exact reaches_frame [_] hlegal hfirst hr (reaches_controls hlast hmask' hrest _)
        · rw [if_neg hlast] at hr
          rw [outboundEvents, if_neg hlast]
          exact reaches_frame [] hlegal hfirst hr (ih h.next hlast hmask' hrest)

end Sending

/-- A fresh sink emits the message `text` once, at its last fragment, and every PING and PONG with
its payload, in order; nothing else, and nothing is thrown. -/
def Delivers (opts : FrameSinkOptions) (text : JsString) (sent : List Outbound)
    (chunks : List Bytes) : Prop :=
  (pushAll opts {} chunks).2.1 = outboundEvents (.onMessage ⟨.text text, false⟩) sent ∧
    (pushAll opts {} chunks).2.2 = []

/-- **Text messages survive the wire exactly when they do not start with a byte order mark.** -/
theorem text_survives_iff (opts : FrameSinkOptions) (m : List Char) (sent : List Outbound)
    (encoded chunks : List Bytes)
    (hbytes : (fragments sent).flatten = (encodeSendPayload (.text (utf16 m))).2)
    (hsome : fragments sent ≠ []) (hcap : (fragments sent).length ≤ opts.fragmentCap)
    (hsize : ∀ limit, opts.maxPayloadLength = some limit → (fragments sent).flatten.length ≤ limit)
    (hsafe : (fragments sent).flatten.length ≤ maxSafeInteger)
    (hmask : opts.requireMask = true → ∀ f ∈
      outboundFrames (encodeSendPayload (.text (utf16 m))).1 sent, f.mask.isSome = true)
    (henc : EncodedAs (outboundFrames (encodeSendPayload (.text (utf16 m))).1 sent) encoded)
    (hchunks : chunks.flatten = encoded.flatten) :
    Delivers opts (utf16 m) sent chunks ↔ m.head? ≠ some byteOrderMark := by
  have hpayload : (fragments sent).flatten = encodeUtf8 m := by
    rw [hbytes, encodeSendPayload, encodeText, scalars_utf16]
  rw [hpayload] at hsize hsafe
  have hreach := reaches_message (a := .idle) ⟨hsize, hsafe⟩
    ⟨Or.inl ⟨rfl, rfl⟩, hpayload, by simpa [Assembly.count] using hcap⟩ hsome hmask henc
  have hreceived : received opts .idle chunks.flatten =
      ⟨.idle, [], outboundEvents (.onMessage ⟨.text (utf16 (stripBom m)), false⟩) sent, .going⟩ := by
    rw [hchunks, received, hreach.drained_eq, drained_incomplete rfl]
    simp [Drained.after]
  have hreturns := pushAll_returns opts Open.fresh chunks (by
    rw [List.nil_append, hreceived]
    simp)
  have hevents := (pushAll_fresh opts chunks hreturns).events
  rw [hreceived] at hevents
  rw [Delivers, hevents, ← stripBom_eq_self]
  constructor
  · rintro ⟨heq, -⟩
    have hmessage := outboundEvents_injective hsome heq
    simp only [SinkEvent.onMessage.injEq, MessageEvent.mk.injEq, MessageData.text.injEq,
      and_true] at hmessage
    exact utf16_injective hmessage
  · intro heq
    rw [heq]
    exact ⟨rfl, hreturns⟩

/-- The character U+00E9, its two bytes in two frames, one of them masked, with a PING between
them, cut into chunks inside a mask key. -/
theorem text_survives_split :
    Delivers {} (utf16 ['é']) [.fragment [0xc3] (some ⟨[1, 2, 3, 4], rfl⟩), .ping [7] none,
      .fragment [0xa9] none] [[0x01, 0x81, 1, 2], [], [3, 4, 0xc2, 0x89, 1, 7, 0x80, 1, 0xa9]] :=
  (text_survives_iff {} ['é'] [.fragment [0xc3] (some ⟨[1, 2, 3, 4], rfl⟩), .ping [7] none,
      .fragment [0xa9] none] [[0x01, 0x81, 1, 2, 3, 4, 0xc2], [0x89, 1, 7], [0x80, 1, 0xa9]]
    [[0x01, 0x81, 1, 2], [], [3, 4, 0xc2, 0x89, 1, 7, 0x80, 1, 0xa9]] (by decide) (by decide)
    (by decide) (by decide) (by decide) (by decide) (.cons rfl (.cons rfl (.cons rfl .nil)))
    (by decide)).mpr (by decide)

theorem text_loses_byteOrderMark :
    encodeFrame { opcode := WsOpcode.text
                  payload := (encodeSendPayload (.text (utf16 [byteOrderMark, 'a']))).2 } =
        .ok [0x81, 4, 0xef, 0xbb, 0xbf, 0x61] ∧
      (pushAll {} {} [[0x81, 4, 0xef, 0xbb, 0xbf, 0x61]]).2.1 = [.onMessage ⟨.text [0x61], false⟩] ∧
      ¬ Delivers {} (utf16 [byteOrderMark, 'a'])
        [.fragment (encodeSendPayload (.text (utf16 [byteOrderMark, 'a']))).2 none]
        [[0x81, 4, 0xef, 0xbb, 0xbf, 0x61]] := by
  refine ⟨rfl, by decide, fun h => ?_⟩
  have hevents := h.1
  revert hevents
  decide

end Daloy.WebSocket
