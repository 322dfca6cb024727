import Daloy.WebSocket.Violations

/-! # What `push` reports

A fault is ahead when frames that break no rule stand before it. The receiver stops at the first
fault with one report; `push` on any sink that a run of calls can leave behind does the same, as
long as no CLOSE frame with a reason that is not UTF-8 is ahead (`push_reports_iff`).
-/

namespace Daloy.WebSocket
set_option autoImplicit false

open Daloy.Parsing Daloy.Unicode FrameSink

/-- A fault in front of the buffer, with the message `a` in progress. -/
def FaultInFront (opts : FrameSinkOptions) (a : Assembly) (xs : Bytes) : Prop :=
  HeaderFault opts xs ∨
    ∃ frame n, (frameParser opts.frame).parse xs = .item frame n ∧ FrameFault opts a frame

/-- Frames that break no rule lead from `a` and `xs` to `a'` and `xs'`, with the events `out`. -/
abbrev Accepts (opts : FrameSinkOptions) (a : Assembly) (xs : Bytes) (a' : Assembly) (xs' : Bytes)
    (out : List SinkEvent) : Prop :=
  Reaches (frameParser opts.frame) (receiver opts) a xs a' xs' out

def ViolationAhead (opts : FrameSinkOptions) (a : Assembly) (xs : Bytes) : Prop :=
  ∃ a' xs' out, Accepts opts a xs a' xs' out ∧ FaultInFront opts a' xs'

/-- Behind frames that break no rule stands a CLOSE frame whose length and code are fine and whose
reason is not UTF-8. -/
def BadCloseAhead (opts : FrameSinkOptions) (a : Assembly) (xs : Bytes) : Prop :=
  ∃ a' xs' out frame n, Accepts opts a xs a' xs' out ∧
    (frameParser opts.frame).parse xs' = .item frame n ∧
    frame.opcode = WsOpcode.close ∧ BadCloseReason frame.payload

/-! ## The receiver at a fault -/

theorem Accepts.silent {opts : FrameSinkOptions} {a a' : Assembly} {xs xs' : Bytes}
    {out : List SinkEvent} (h : Accepts opts a xs a' xs' out) (e : WebSocketProtocolError) :
    SinkEvent.onProtocolError e ∉ out := by
  induction h with
  | refl => simp
  | @step s s₁ s₂ xs xs₂ frame n out out₂ hp hr rest ih =>
    have hreact : Reacts opts s frame (.next s₁ out) := hr ▸ receive_reacts opts s frame
    cases hreact with
    | accepted hout => simp [hout e, ih]

theorem received_fault {opts : FrameSinkOptions} {a : Assembly} {xs : Bytes}
    (hf : FaultInFront opts a xs)
    (hgood : ∀ frame n, (frameParser opts.frame).parse xs = .item frame n →
      ¬ (frame.opcode = WsOpcode.close ∧ BadCloseReason frame.payload)) :
    ∃ e, (received opts a xs).out = [.onProtocolError e] ∧
      (received opts a xs).status = .halted := by
  rcases hf with hheader | ⟨frame, n, hp, hframe⟩
  · obtain ⟨e, he⟩ := parseFrame_error_iff.mpr hheader
    rw [received, drained_reject (frameVerdict_eq_reject.mpr he)]
    exact ⟨e, rfl, rfl⟩
  · have hreact := receive_reacts opts a frame
    cases hr : a.receive opts frame with
    | next a' out =>
      rw [hr] at hreact
      cases hreact with
      | accepted _ hok => exact absurd hframe hok
    | halt a' out =>
      rw [received, drained_halt hp hr]
      rw [hr] at hreact
      cases hreact with
      | closing hok => exact absurd hframe hok
      | @reported e => exact ⟨e, rfl, rfl⟩
    | escape a' =>
      rw [hr] at hreact
      cases hreact with
      | raised hop hbad => exact absurd ⟨hop, hbad⟩ (hgood frame n hp)

theorem badCloseAhead_of_escaped {opts : FrameSinkOptions} {a : Assembly} {xs : Bytes}
    (h : (received opts a xs).status = .escaped) : BadCloseAhead opts a xs := by
  obtain ⟨a', xs', out, hreach, hstuck⟩ :=
    exists_stuck (frameParser opts.frame) (receiver opts) a xs
  rw [received, hreach.drained_eq] at h
  cases hp : (frameParser opts.frame).parse xs' with
  | incomplete => simp [drained_incomplete hp, Drained.after] at h
  | reject e => simp [drained_reject hp, Drained.after] at h
  | item frame n =>
    have hreact := receive_reacts opts a' frame
    cases hr : a'.receive opts frame with
    | next a₁ o => exact absurd hr (hstuck frame n hp a₁ o)
    | halt a₁ o => simp [drained_halt (C := receiver opts) hp hr, Drained.after] at h
    | escape a₁ =>
      rw [hr] at hreact
      cases hreact with
      | raised hop hbad => exact ⟨a', xs', out, frame, n, hreach, hp, hop, hbad⟩

theorem escaped_of_badCloseAhead {opts : FrameSinkOptions} {a : Assembly} {xs : Bytes}
    (h : BadCloseAhead opts a xs) : (received opts a xs).status = .escaped := by
  obtain ⟨a', xs', out, frame, n, hreach, hp, hop, hbad⟩ := h
  have hr : (receiver opts).receive a' frame = .escape a' := by
    change a'.receive opts frame = _
    rw [Assembly.receive, if_pos (control_of_close hop), if_pos hop,
      decodeClosePayload_eq_typeError.mpr hbad]
  rw [received, hreach.drained_eq, drained_escape hp hr]
  rfl

theorem violationAhead_of_report {opts : FrameSinkOptions} {a : Assembly} {xs : Bytes}
    {e : WebSocketProtocolError} (h : .onProtocolError e ∈ (received opts a xs).out) :
    ViolationAhead opts a xs := by
  obtain ⟨a', xs', out, hreach, hstuck⟩ :=
    exists_stuck (frameParser opts.frame) (receiver opts) a xs
  refine ⟨a', xs', out, hreach, ?_⟩
  rw [received, hreach.drained_eq] at h
  have hlast := (List.mem_append.mp h).resolve_left (Accepts.silent hreach e)
  cases hp : (frameParser opts.frame).parse xs' with
  | incomplete => simp [drained_incomplete hp] at hlast
  | reject e' => exact Or.inl (parseFrame_error_iff.mp ⟨e', frameVerdict_eq_reject.mp hp⟩)
  | item frame n =>
    have hreact := receive_reacts opts a' frame
    cases hr : a'.receive opts frame with
    | next a₁ o => exact absurd hr (hstuck frame n hp a₁ o)
    | halt a₁ o =>
      rw [drained_halt (C := receiver opts) hp hr] at hlast
      rw [hr] at hreact
      cases hreact with
      | closing => simp at hlast
      | reported hf => exact Or.inr ⟨frame, n, hp, hf⟩
    | escape a₁ => simp [drained_escape (C := receiver opts) hp hr] at hlast

/-! ## The states a sink can be in -/

def FrameSink.assembly (sink : FrameSink) : Assembly :=
  if sink.fragmentOpcode = -1 then .idle
  else .gathering sink.fragmentOpcode.toNat (sink.msg.take sink.fragmentBytes) sink.fragmentCount

theorem Holds.assembly_eq {sink : FrameSink} {a : Assembly} (h : Holds sink a) :
    sink.assembly = a := by
  have hop := h.opcode
  unfold FrameSink.assembly
  cases a with
  | idle => exact if_pos hop
  | gathering opcode bytes count =>
    have hop' : sink.fragmentOpcode = Int.ofNat opcode := hop
    have hbytes : sink.msg.take sink.fragmentBytes = bytes := h.bytes
    have hcount : sink.fragmentCount = count := h.count
    rw [if_neg (by rw [hop']; simp), hop', hbytes, hcount]
    rfl

theorem pushAll_reachable (opts : FrameSinkOptions) (sink : FrameSink)
    (h : sink.closed = true ∨ Open sink sink.assembly sink.pending) (chunks : List Bytes) :
    (sink.pushAll opts chunks).1.closed = true ∨
      Open (sink.pushAll opts chunks).1 (sink.pushAll opts chunks).1.assembly
        (sink.pushAll opts chunks).1.pending := by
  induction chunks generalizing sink with
  | nil => exact h
  | cons chunk chunks ih =>
    refine ih _ ?_
    rcases h with hclosed | hopen
    · rw [push_closed opts hclosed]
      exact Or.inl hclosed
    · have hpush := push_spec opts hopen chunk
      have hcanon {a : Assembly} {p : Bytes} (ho : Open (sink.push opts chunk).sink a p) :
          Open (sink.push opts chunk).sink (sink.push opts chunk).sink.assembly
            (sink.push opts chunk).sink.pending := by
        rw [ho.holds.assembly_eq, ho.pending]
        exact ho
      cases hs : (received opts sink.assembly (sink.pending ++ chunk)).status with
      | going => exact Or.inr (hcanon (hpush.going hs).1)
      | halted => exact Or.inl (hpush.halted hs).1
      | escaped => exact Or.inr (hcanon (hpush.escaped hs).1)

/-! ## `push` -/

/-- `push` returns; the first violation ahead is reported once, behind the events of the frames
before it, and closes the sink for good; without a violation nothing is reported. -/
structure PushMeets (opts : FrameSinkOptions) (sink : FrameSink) (chunk : Bytes) : Prop where
  returns : (sink.push opts chunk).threw = none
  reported : sink.closed = false → ∀ a' xs' out,
    Accepts opts sink.assembly (sink.pending ++ chunk) a' xs' out → FaultInFront opts a' xs' →
      ∃ e, (sink.push opts chunk).events = out ++ [.onProtocolError e] ∧
        (∀ e', SinkEvent.onProtocolError e' ∉ out) ∧ (sink.push opts chunk).sink.closed = true ∧
        ∀ later, ((sink.push opts chunk).sink.pushAll opts later).2.1 = []
  sound : ∀ e, .onProtocolError e ∈ (sink.push opts chunk).events →
    ViolationAhead opts sink.assembly (sink.pending ++ chunk)
  silent : sink.closed = true → (sink.push opts chunk).events = []

end Daloy.WebSocket
