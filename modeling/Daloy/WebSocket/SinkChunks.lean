import Daloy.WebSocket.SinkRefinement

/-! # A byte stream means the same however it is cut into chunks

As long as no exception leaves a `push`, the calls on the chunks of a stream amount to the
receiver on the whole stream (`pushAll_spec`). The events, the pending input and whether the sink
is closed are then functions of the stream alone (`pushAll_chunking`).
-/

namespace Daloy.WebSocket
set_option autoImplicit false

open Daloy.Parsing FrameSink

/-- A sequence of calls next to the receiver on the whole input. -/
structure PushedAll (sink : FrameSink) (events : List SinkEvent)
    (d : Drained UInt8 Assembly SinkEvent) : Prop where
  events : events = d.out
  going : d.status = .going → Open sink d.state d.pending
  halted : d.status = .halted → sink.closed = true
  returned : d.status ≠ .escaped

theorem pushAll_spec (opts : FrameSinkOptions) {sink : FrameSink} {a : Assembly} {p : Bytes}
    (h : Open sink a p) (hp : (frameParser opts.frame).parse p = .incomplete)
    (chunks : List Bytes) (hno : (sink.pushAll opts chunks).2.2 = []) :
    PushedAll (sink.pushAll opts chunks).1 (sink.pushAll opts chunks).2.1
      (received opts a (p ++ chunks.flatten)) := by
  induction chunks generalizing sink a p with
  | nil =>
    rw [List.flatten_nil, List.append_nil, received, drained_incomplete hp]
    exact ⟨rfl, fun _ => h, by simp, by simp⟩
  | cons chunk chunks ih =>
    have hpush := push_spec opts h chunk
    simp only [pushAll, List.append_eq_nil_iff, Option.toList_eq_nil_iff] at hno ⊢
    rw [List.flatten_cons, ← List.append_assoc]
    cases hs : (received opts a (p ++ chunk)).status with
    | going =>
      have hincomplete := (reaches_of_going (frameParser opts.frame) (receiver opts) hs).2
      have hrest := ih (hpush.going hs).1 hincomplete hno.2
      rw [received, drained_append_going _ _ _ hs]
      exact ⟨by rw [hpush.events, hrest.events]; rfl, hrest.going, hrest.halted, hrest.returned⟩
    | halted =>
      have hclosed := (hpush.halted hs).1
      rw [received, drained_append_halted _ _ _ hs, pushAll_closed opts hclosed]
      exact ⟨by rw [hpush.events, List.append_nil], by simp [hs], fun _ => hclosed, by simp [hs]⟩
    | escaped => simp [(hpush.escaped hs).2] at hno

theorem pushAll_returns (opts : FrameSinkOptions) {sink : FrameSink} {a : Assembly} {p : Bytes}
    (h : Open sink a p) (chunks : List Bytes)
    (hno : (received opts a (p ++ chunks.flatten)).status ≠ .escaped) :
    (sink.pushAll opts chunks).2.2 = [] := by
  induction chunks generalizing sink a p with
  | nil => rfl
  | cons chunk chunks ih =>
    have hpush := push_spec opts h chunk
    rw [List.flatten_cons, ← List.append_assoc] at hno
    rw [pushAll, List.append_eq_nil_iff, Option.toList_eq_nil_iff]
    cases hs : (received opts a (p ++ chunk)).status with
    | going =>
      obtain ⟨hopen, hthrew⟩ := hpush.going hs
      refine ⟨hthrew, ih hopen ?_⟩
      rwa [received, drained_append_going _ _ _ hs] at hno
    | halted =>
      obtain ⟨hclosed, hthrew⟩ := hpush.halted hs
      exact ⟨hthrew, by rw [pushAll_closed opts hclosed]⟩
    | escaped => exact absurd (drained_append_escaped _ _ _ hs) hno

theorem pushAll_fresh (opts : FrameSinkOptions) (chunks : List Bytes)
    (hno : (pushAll opts {} chunks).2.2 = []) :
    PushedAll (pushAll opts {} chunks).1 (pushAll opts {} chunks).2.1
      (received opts .idle chunks.flatten) := by
  have := pushAll_spec opts Open.fresh rfl chunks hno
  rwa [List.nil_append] at this

theorem PushedAll.pending_suffix {opts : FrameSinkOptions} {sink : FrameSink} {a : Assembly}
    {events : List SinkEvent} {s : Bytes} (h : PushedAll sink events (received opts a s))
    (hopen : sink.closed = false) :
    sink.pending = (received opts a s).pending ∧ sink.pending <:+ s := by
  cases hs : (received opts a s).status with
  | going =>
    have hsuffix := (reaches_of_going (frameParser opts.frame) (receiver opts) hs).1.suffix
    rw [(h.going hs).pending]
    exact ⟨rfl, hsuffix⟩
  | halted => simp [h.halted hs] at hopen
  | escaped => exact absurd hs h.returned

/-- **Chunk independence.** Two ways to cut one stream, pushed into two fresh sinks without an
exception, give the same events and leave both sinks closed or both open; open, they hold the same
pending input, byte for byte a suffix of the stream as it was sent. -/
theorem pushAll_chunking (opts : FrameSinkOptions) (s : Bytes) (cs ds : List Bytes)
    (hcs : cs.flatten = s) (hds : ds.flatten = s)
    (hc : (pushAll opts {} cs).2.2 = []) (hd : (pushAll opts {} ds).2.2 = []) :
    (pushAll opts {} cs).2.1 = (pushAll opts {} ds).2.1 ∧
      (pushAll opts {} cs).1.closed = (pushAll opts {} ds).1.closed ∧
      ((pushAll opts {} cs).1.closed = false →
        (pushAll opts {} cs).1.pending = (pushAll opts {} ds).1.pending ∧
          (pushAll opts {} cs).1.pending <:+ s) := by
  have hl := pushAll_fresh opts cs hc
  have hr := pushAll_fresh opts ds hd
  rw [hcs] at hl
  rw [hds] at hr
  have hclosed : (pushAll opts {} cs).1.closed = (pushAll opts {} ds).1.closed := by
    cases hs : (received opts .idle s).status with
    | going => rw [(hl.going hs).notClosed, (hr.going hs).notClosed]
    | halted => rw [hl.halted hs, hr.halted hs]
    | escaped => exact absurd hs hl.returned
  refine ⟨by rw [hl.events, hr.events], hclosed, fun hopen => ?_⟩
  obtain ⟨hpl, hsuffix⟩ := hl.pending_suffix hopen
  obtain ⟨hpr, -⟩ := hr.pending_suffix (hclosed ▸ hopen)
  exact ⟨hpl.trans hpr.symm, hsuffix⟩

theorem pushAll_chunking_masked :
    (pushAll { requireMask := true } {} [[0x81, 0x82, 1, 2], [3, 4, 0x69], [0x6b]]).2.1 =
      (pushAll { requireMask := true } {} [[0x81, 0x82, 1, 2, 3, 4, 0x69, 0x6b]]).2.1 ∧
    (pushAll { requireMask := true } {} [[0x81, 0x82, 1, 2], [3, 4, 0x69], [0x6b]]).2.1 =
      [.onMessage ⟨.text [0x68, 0x69], false⟩] :=
  ⟨(pushAll_chunking { requireMask := true } [0x81, 0x82, 1, 2, 3, 4, 0x69, 0x6b]
    [[0x81, 0x82, 1, 2], [3, 4, 0x69], [0x6b]] [[0x81, 0x82, 1, 2, 3, 4, 0x69, 0x6b]]
    (by decide) (by decide) (by decide) (by decide)).1, by decide⟩

end Daloy.WebSocket
