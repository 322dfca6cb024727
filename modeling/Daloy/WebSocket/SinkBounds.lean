import Daloy.WebSocket.Reports

/-! # The memory of a `FrameSink`

What a sink with `maxPayloadLength` holds after every `push`.

* `incomplete_lt`: input that waits for the rest of a frame is short.
* `push_limits`: the fields of the message in progress stay within the limits.
-/

namespace Daloy.WebSocket
set_option autoImplicit false

open Daloy.Parsing Daloy.Unicode FrameSink

/-- Where the bounds lie: an incomplete frame is shorter than the largest payload it may declare
and the longest header. -/
abbrev pendingBound (limit : ℕ) : ℕ := max limit wsMaxControlPayload + 14

/-! ## Incomplete input -/

theorem readPayloadLength_spec {buf : Bytes} {len7 n offset : ℕ}
    (h : readPayloadLength buf len7 = .ok (some (n, offset))) :
    offset ≤ 10 ∧ (len7 ≤ 125 → n = len7) := by
  unfold readPayloadLength at h
  split at h
  · split at h
    · simp at h
    · simp only [Except.ok.injEq, Option.some.injEq, Prod.mk.injEq] at h
      omega
  split at h
  · split at h
    · simp at h
    · dsimp only at h
      split at h
      · simp at h
      · simp only [Except.ok.injEq, Option.some.injEq, Prod.mk.injEq] at h
        omega
  · simp only [Except.ok.injEq, Option.some.injEq, Prod.mk.injEq] at h
    omega

theorem payloadLen_le {buf : Bytes} {opts : ParseFrameOptions} {h : FrameHeader} {limit : ℕ}
    (hlimit : opts.maxPayload = some limit) (hp : parseHeader buf opts = .ok (some h)) :
    h.payloadLen ≤ max limit wsMaxControlPayload := by
  obtain ⟨-, -, -, -, -, hop, hread, hmax, -⟩ := parseHeader_eq_some hp
  by_cases hdata : h.opcode &&& 0x8 = 0
  · have := hmax hdata limit hlimit
    omega
  · have hshort := ((checkOpcode_eq_ok.mp hop).2 hdata).2
    have hlen := (readPayloadLength_spec hread).2 hshort
    omega

theorem incomplete_lt {buf : Bytes} {opts : ParseFrameOptions} {limit : ℕ}
    (hlimit : opts.maxPayload = some limit) (hp : parseFrame buf opts = .ok none) :
    buf.length < pendingBound limit := by
  unfold pendingBound
  unfold parseFrame at hp
  cases hh : parseHeader buf opts with
  | error e =>
    rw [hh] at hp
    cases hp
  | ok o =>
    cases o with
    | none =>
      -- the header is not there yet
      obtain hshort | ⟨-, hnone, -⟩ := parseHeader_eq_none hh
      · omega
      · unfold declaredLength at hnone
        split at hnone
        · omega
        split at hnone
        · split at hnone
          · cases hnone
          · omega
        split at hnone
        · split at hnone
          · cases hnone
          · omega
        · cases hnone
    | some h =>
      have hpay := payloadLen_le hlimit hh
      have hoff := (readPayloadLength_spec (parseHeader_eq_some hh).2.2.2.2.2.2.1).1
      have hdata : h.dataOffset ≤ h.offset + 4 := by
        unfold FrameHeader.dataOffset
        split <;> omega
      rw [hh] at hp
      dsimp only at hp
      split at hp
      · omega
      split at hp
      · omega
      · simp at hp

/-! ## The message in progress -/

namespace FrameSink

/-- The size fields of a sink that may hold one frame too many when it was refused. -/
structure Limits (opts : FrameSinkOptions) (limit : ℕ) (r : SinkResult) : Prop where
  bytes : r.sink.fragmentBytes ≤ limit
  refused : r.sink.fragmentCount ≤ opts.fragmentCap + 1
  count : (∀ e, r.threw ≠ some (.protocol e)) → r.sink.fragmentCount ≤ opts.fragmentCap

variable {opts : FrameSinkOptions} {limit : ℕ}

theorem Limits.of_le {r : SinkResult} (hbytes : r.sink.fragmentBytes ≤ limit)
    (hcount : r.sink.fragmentCount ≤ opts.fragmentCap) : Limits opts limit r :=
  ⟨hbytes, Nat.le_succ_of_le hcount, fun _ => hcount⟩

theorem deliver_limits (sink : FrameSink) (joined : Bytes) :
    Limits opts limit (sink.deliver joined) := by
  unfold deliver
  split
  · exact .of_le (Nat.zero_le _) (Nat.zero_le _)
  split <;> exact .of_le (Nat.zero_le _) (Nat.zero_le _)

theorem appendFragment_sizes {sink held : FrameSink} {payload : Bytes}
    (h : appendFragment opts sink payload = some held) :
    held.fragmentBytes = sink.fragmentBytes ∧ held.fragmentCount = sink.fragmentCount := by
  unfold appendFragment at h
  obtain ⟨msg, -, rfl⟩ := Option.map_eq_some_iff.mp h
  exact ⟨rfl, rfl⟩

theorem handleFragment_limits (hlimit : opts.maxPayloadLength = some limit) {sink : FrameSink}
    (hbytes : sink.fragmentBytes ≤ limit) (hcount : sink.fragmentCount ≤ opts.fragmentCap)
    (frame : ParsedFrame) : Limits opts limit (handleFragment opts sink frame) := by
  unfold handleFragment
  dsimp only
  split
  · exact ⟨hbytes, Nat.succ_le_succ hcount, fun h => absurd rfl (h _)⟩
  next hfew =>
  have hfew' : sink.fragmentCount + 1 ≤ opts.fragmentCap := by omega
  unfold assertMessageSize
  dsimp only
  by_cases hbig : opts.maxPayloadLength.any (sink.fragmentBytes + frame.payload.length > ·) = true
  · rw [if_pos hbig]
    exact .of_le hbytes hfew'
  rw [if_neg hbig]
  have hsize : sink.fragmentBytes + frame.payload.length ≤ limit := by
    rw [hlimit, Option.any_some, decide_eq_true_eq] at hbig
    omega
  dsimp only
  split
  · exact deliver_limits _ _
  split
  · exact .of_le hsize hfew'
  · next held happ =>
    have hheld : held.fragmentBytes = sink.fragmentBytes + frame.payload.length ∧
        held.fragmentCount = sink.fragmentCount + 1 := by
      split at happ
      · exact appendFragment_sizes happ
      · obtain rfl := Option.some.inj happ
        exact ⟨rfl, rfl⟩
    split
    · exact .of_le (by rw [hheld.1]; exact hsize) (by rw [hheld.2]; exact hfew')
    · exact deliver_limits _ _

theorem handle_limits (hlimit : opts.maxPayloadLength = some limit) {sink : FrameSink}
    (hbytes : sink.fragmentBytes ≤ limit) (hcount : sink.fragmentCount ≤ opts.fragmentCap)
    (frame : ParsedFrame) : Limits opts limit (handle opts sink frame) := by
  unfold handle
  split
  · unfold handleControl
    split
    · split <;> exact .of_le hbytes hcount
    · split <;> exact .of_le hbytes hcount
  split
  · split
    · exact .of_le hbytes hcount
    · exact handleFragment_limits hlimit hbytes hcount frame
  split
  · exact .of_le hbytes hcount
  · refine handleFragment_limits hlimit ?_ ?_ frame
    · exact hbytes
    · exact hcount

theorem pump_limits (hlimit : opts.maxPayloadLength = some limit) (turns : ℕ) {sink : FrameSink}
    (hbytes : sink.fragmentBytes ≤ limit) (hcount : sink.fragmentCount ≤ opts.fragmentCap) :
    Limits opts limit (pump opts turns sink) := by
  induction turns generalizing sink with
  | zero => exact .of_le hbytes hcount
  | succ turns ih =>
    unfold pump
    split
    · split
      · exact .of_le hbytes hcount
      · exact .of_le hbytes hcount
      · next frame view hp =>
        have hframe : Limits opts limit (handle opts (sink.consume view frame.consumed) frame) := by
          refine handle_limits hlimit ?_ ?_ frame
          · exact hbytes
          · exact hcount
        dsimp only
        split
        · exact hframe
        · next hgoing =>
          have hnone : ∀ e, (handle opts (sink.consume view frame.consumed) frame).threw ≠
              some (.protocol e) := by
            intro e hthrew
            simp [hthrew] at hgoing
          obtain ⟨hb, hr, hc⟩ := ih hframe.bytes (hframe.count hnone)
          exact ⟨hb, hr, hc⟩
    · exact .of_le hbytes hcount

theorem handleFragment_closed (opts : FrameSinkOptions) (sink : FrameSink) (frame : ParsedFrame) :
    (handleFragment opts sink frame).sink.closed = sink.closed := by
  have hdeliver : ∀ (sink : FrameSink) (joined : Bytes),
      (sink.deliver joined).sink.closed = sink.closed := by
    intro sink joined
    unfold deliver
    split
    · rfl
    split <;> rfl
  unfold handleFragment assertMessageSize
  dsimp only
  split
  · rfl
  split
  · rfl
  next sized hsized =>
  have hclosed : sized.closed = sink.closed := by
    split at hsized
    · cases hsized
    · obtain rfl := Except.ok.inj hsized
      rfl
  split
  · rw [hdeliver, hclosed]
  split
  · exact hclosed
  next held happ =>
  have hheld : held.closed = sized.closed := by
    split at happ
    · unfold appendFragment at happ
      obtain ⟨msg, -, rfl⟩ := Option.map_eq_some_iff.mp happ
      rfl
    · obtain rfl := Option.some.inj happ
      rfl
  split
  · rw [hheld, hclosed]
  · rw [hdeliver, hheld, hclosed]

abbrev Released (sink : FrameSink) : Prop := sink.closed = true → sink.off = 0 ∧ sink.len = 0

theorem Released.of_open {sink : FrameSink} (hopen : sink.closed = false) : Released sink := by
  intro hclosed
  rw [hopen] at hclosed
  cases hclosed

theorem handle_released {sink : FrameSink} (hopen : sink.closed = false) (opts : FrameSinkOptions)
    (frame : ParsedFrame) : Released (handle opts sink frame).sink := by
  unfold handle
  split
  · unfold handleControl
    split
    · split
      · exact .of_open hopen
      · exact fun _ => ⟨rfl, rfl⟩
    split <;> exact .of_open hopen
  split
  · split
    · exact .of_open hopen
    · exact .of_open ((handleFragment_closed opts _ frame).trans hopen)
  split
  · exact .of_open hopen
  · exact .of_open ((handleFragment_closed opts _ frame).trans hopen)

theorem pump_released (opts : FrameSinkOptions) (turns : ℕ) {sink : FrameSink}
    (hopen : sink.closed = false) : Released (pump opts turns sink).sink := by
  induction turns generalizing sink with
  | zero => exact .of_open hopen
  | succ turns ih =>
    unfold pump
    split
    · split
      · exact .of_open hopen
      · exact .of_open hopen
      · next frame view hp =>
        have hframe : Released (handle opts (sink.consume view frame.consumed) frame).sink := by
          refine handle_released ?_ opts frame
          exact hopen
        dsimp only
        split
        · exact hframe
        · next hgoing =>
          rw [Bool.or_eq_true, not_or] at hgoing
          exact ih (Bool.eq_false_iff.mpr hgoing.2)
    · exact .of_open hopen

theorem fill_sizes {sink filled : FrameSink} {chunk : Bytes} (h : sink.fill chunk = some filled) :
    filled.fragmentBytes = sink.fragmentBytes ∧ filled.fragmentCount = sink.fragmentCount ∧
      filled.closed = sink.closed := by
  unfold fill at h
  split at h
  · obtain rfl := Option.some.inj h
    exact ⟨rfl, rfl, rfl⟩
  · unfold append makeRoom at h
    dsimp only at h
    obtain ⟨roomy, hroom, hset⟩ := Option.bind_eq_some_iff.mp h
    obtain ⟨buf, -, rfl⟩ := Option.map_eq_some_iff.mp hset
    split at hroom
    · split at hroom
      · obtain rfl := Option.some.inj hroom
        exact ⟨rfl, rfl, rfl⟩
      · obtain ⟨next, -, rfl⟩ := Option.map_eq_some_iff.mp hroom
        exact ⟨rfl, rfl, rfl⟩
    · obtain rfl := Option.some.inj hroom
      exact ⟨rfl, rfl, rfl⟩

/-! ## `push` -/

/-- What the fields of a sink between two calls are bounded by. -/
structure Kept (opts : FrameSinkOptions) (limit : ℕ) (sink : FrameSink) : Prop where
  bytes : sink.fragmentBytes ≤ limit
  refused : sink.fragmentCount ≤ opts.fragmentCap + 1
  count : sink.closed = false → sink.fragmentCount ≤ opts.fragmentCap
  released : Released sink

theorem push_kept (hlimit : opts.maxPayloadLength = some limit) {sink : FrameSink}
    (h : Kept opts limit sink) (chunk : Bytes) : Kept opts limit (sink.push opts chunk).sink := by
  cases hclosed : sink.closed with
  | true =>
    rw [push_closed opts hclosed]
    exact h
  | false =>
    rw [push, hclosed, if_neg Bool.false_ne_true]
    split
    · exact h
    · next filled hfill =>
      have hsizes := fill_sizes hfill
      have hpump : Limits opts limit (pump opts (filled.len + 1) filled) :=
        pump_limits hlimit _ (by rw [hsizes.1]; exact h.bytes)
          (by rw [hsizes.2.1]; exact h.count hclosed)
      have hreleased := pump_released opts (filled.len + 1) (hsizes.2.2.trans hclosed)
      dsimp only
      split
      · exact ⟨hpump.bytes, hpump.refused, fun hfalse => (by cases hfalse), fun _ => ⟨rfl, rfl⟩⟩
      · next hthrew =>
        exact ⟨hpump.bytes, hpump.refused, fun _ => hpump.count hthrew, hreleased⟩

theorem pushAll_kept (hlimit : opts.maxPayloadLength = some limit) {sink : FrameSink}
    (h : Kept opts limit sink) (chunks : List Bytes) :
    Kept opts limit (sink.pushAll opts chunks).1 := by
  induction chunks generalizing sink with
  | nil => exact h
  | cons chunk chunks ih => exact ih (push_kept hlimit h chunk)

theorem Kept.fresh : Kept opts limit {} :=
  ⟨Nat.zero_le _, Nat.zero_le _, fun _ => Nat.zero_le _, fun h => (by cases h)⟩

theorem pushAll_append (opts : FrameSinkOptions) (sink : FrameSink) (chunks more : List Bytes) :
    (sink.pushAll opts (chunks ++ more)).1 =
      ((sink.pushAll opts chunks).1.pushAll opts more).1 := by
  induction chunks generalizing sink with
  | nil => rfl
  | cons chunk chunks ih => exact ih _

end FrameSink

/-! ## The bound -/

structure Bounded (opts : FrameSinkOptions) (limit : ℕ) (sink : FrameSink) : Prop where
  pending : sink.len < pendingBound limit
  bytes : sink.fragmentBytes ≤ limit
  count : sink.closed = false → sink.fragmentCount ≤ opts.fragmentCap
  refused : sink.fragmentCount ≤ opts.fragmentCap + 1
  opcode : sink.closed = false →
    (sink.fragmentOpcode = -1 ↔ sink.fragmentBytes = 0 ∧ sink.fragmentCount = 0)
  inRange : sink.off + sink.len ≤ sink.buf.length

/-- Behind frames that break no rule stands a CLOSE frame with a reason that is not UTF-8, and
behind it more input than a sink may hold. -/
def FloodAhead (opts : FrameSinkOptions) (limit : ℕ) (a : Assembly) (xs : Bytes) : Prop :=
  ∃ a' xs' out frame n, Accepts opts a xs a' xs' out ∧
    (frameParser opts.frame).parse xs' = .item frame n ∧
    frame.opcode = WsOpcode.close ∧ BadCloseReason frame.payload ∧
    pendingBound limit ≤ (xs'.drop n).length

theorem floodAhead_iff {opts : FrameSinkOptions} {limit : ℕ} {a : Assembly} {xs : Bytes} :
    FloodAhead opts limit a xs ↔ (received opts a xs).status = .escaped ∧
      pendingBound limit ≤ (received opts a xs).pending.length := by
  have hescape : ∀ {a' xs' out frame n}, Accepts opts a xs a' xs' out →
      (frameParser opts.frame).parse xs' = .item frame n → frame.opcode = WsOpcode.close →
      BadCloseReason frame.payload →
      (received opts a xs).status = .escaped ∧ (received opts a xs).pending = xs'.drop n := by
    intro a' xs' out frame n hreach hp hop hbad
    have hr : (receiver opts).receive a' frame = .escape a' := by
      change a'.receive opts frame = _
      rw [Assembly.receive, if_pos (control_of_close hop), if_pos hop,
        decodeClosePayload_eq_typeError.mpr hbad]
    rw [received, hreach.drained_eq, drained_escape hp hr]
    exact ⟨rfl, rfl⟩
  constructor
  · rintro ⟨a', xs', out, frame, n, hreach, hp, hop, hbad, hlong⟩
    obtain ⟨hstatus, hpending⟩ := hescape hreach hp hop hbad
    exact ⟨hstatus, by rw [hpending]; exact hlong⟩
  · rintro ⟨hstatus, hlong⟩
    obtain ⟨a', xs', out, frame, n, hreach, hp, hop, hbad⟩ := badCloseAhead_of_escaped hstatus
    obtain ⟨-, hpending⟩ := hescape hreach hp hop hbad
    exact ⟨a', xs', out, frame, n, hreach, hp, hop, hbad, by rw [← hpending]; exact hlong⟩

theorem Holds.opcode_iff {sink : FrameSink} {a : Assembly} (h : Holds sink a) :
    sink.fragmentOpcode = -1 ↔ sink.fragmentBytes = 0 ∧ sink.fragmentCount = 0 := by
  rw [h.opcode, h.size, h.count]
  constructor
  · intro hop
    cases a with
    | idle => exact ⟨rfl, rfl⟩
    | gathering opcode bytes count => cases hop
  · rintro ⟨-, hzero⟩
    rw [h.started hzero]
    rfl

theorem bounded_of_open {opts : FrameSinkOptions} {limit : ℕ} {sink : FrameSink} {a : Assembly}
    {p : Bytes} (hkept : Kept opts limit sink) (hopen : Open sink a p) :
    Bounded opts limit sink ↔ p.length < pendingBound limit := by
  have hlen : p.length = sink.len := by rw [← hopen.pending, pending_length hopen.inRange]
  rw [hlen]
  exact ⟨fun h => h.pending, fun h =>
    ⟨h, hkept.bytes, hkept.count, hkept.refused, fun _ => hopen.holds.opcode_iff, hopen.inRange⟩⟩

theorem bounded_of_closed {opts : FrameSinkOptions} {limit : ℕ} {sink : FrameSink}
    (hkept : Kept opts limit sink) (hclosed : sink.closed = true) : Bounded opts limit sink := by
  obtain ⟨hoff, hlen⟩ := hkept.released hclosed
  refine ⟨?_, hkept.bytes, hkept.count, hkept.refused, fun hfalse => ?_, ?_⟩
  · rw [hlen]
    exact Nat.lt_of_lt_of_le (by decide) (Nat.le_add_left 14 _)
  · rw [hfalse] at hclosed
    cases hclosed
  · rw [hoff, hlen]
    exact Nat.zero_le _

theorem push_bounded_iff {opts : FrameSinkOptions} {limit : ℕ}
    (hlimit : opts.maxPayloadLength = some limit) (chunks : List Bytes) (chunk : Bytes) :
    Bounded opts limit (pushAll opts {} (chunks ++ [chunk])).1 ↔
      ((pushAll opts {} chunks).1.closed = false →
        ¬ FloodAhead opts limit (pushAll opts {} chunks).1.assembly
          ((pushAll opts {} chunks).1.pending ++ chunk)) := by
  have hkept := pushAll_kept hlimit Kept.fresh (chunks ++ [chunk])
  have hreach := pushAll_reachable opts {} (Or.inr Open.fresh) chunks
  rw [pushAll_append] at hkept ⊢
  generalize (pushAll opts {} chunks).1 = sink at hreach hkept ⊢
  have hone : (sink.pushAll opts [chunk]).1 = (sink.push opts chunk).sink := rfl
  rw [hone] at hkept ⊢
  obtain hclosed | hopen := hreach
  · rw [push_closed opts hclosed] at hkept ⊢
    simp only [hclosed, Bool.true_eq_false, false_implies, iff_true]
    exact bounded_of_closed hkept hclosed
  rw [floodAhead_iff]
  have hpush := push_spec opts hopen chunk
  simp only [hopen.notClosed, true_implies]
  cases hs : (received opts sink.assembly (sink.pending ++ chunk)).status with
  | going =>
    have hincomplete := (reaches_of_going (frameParser opts.frame) (receiver opts) hs).2
    have hshort := incomplete_lt hlimit (frameVerdict_eq_incomplete.mp hincomplete)
    rw [bounded_of_open hkept (hpush.going hs).1]
    exact ⟨fun _ h => (nomatch h.1), fun _ => hshort⟩
  | halted =>
    exact ⟨fun _ h => (nomatch h.1), fun _ => bounded_of_closed hkept (hpush.halted hs).1⟩
  | escaped =>
    rw [bounded_of_open hkept (hpush.escaped hs).1]
    simp

/-- **The memory of a sink.** A fresh sink with `maxPayloadLength` stays within the bounds after
every call of a run exactly when no call finds too much input behind a CLOSE frame whose reason is
not UTF-8; the `TypeError` of such a frame leaves the sink open, with that input in it. -/
theorem sink_bounded_iff {opts : FrameSinkOptions} {limit : ℕ}
    (hlimit : opts.maxPayloadLength = some limit) (chunks : List Bytes) :
    (∀ calls, calls <+: chunks → Bounded opts limit (pushAll opts {} calls).1) ↔
      ∀ calls chunk, calls ++ [chunk] <+: chunks → (pushAll opts {} calls).1.closed = false →
        ¬ FloodAhead opts limit (pushAll opts {} calls).1.assembly
          ((pushAll opts {} calls).1.pending ++ chunk) := by
  constructor
  · intro h calls chunk hcalls
    exact (push_bounded_iff hlimit calls chunk).mp (h _ hcalls)
  · intro h calls hcalls
    obtain rfl | ⟨front, chunk, rfl⟩ := List.eq_nil_or_concat calls
    · exact (bounded_of_open Kept.fresh Open.fresh).mpr (Nat.lt_of_lt_of_le (by decide)
        (Nat.le_add_left 14 _))
    · rw [List.concat_eq_append] at hcalls ⊢
      exact (push_bounded_iff hlimit front chunk).mpr (h front chunk hcalls)

theorem sink_bounded_fragments :
    Bounded { maxPayloadLength := some 4 } 4
      (pushAll { maxPayloadLength := some 4 } {} [[0x01, 1, 0x61, 0x00]]).1 := by
  refine (@sink_bounded_iff { maxPayloadLength := some 4 } 4 rfl [[0x01, 1, 0x61, 0x00]]).mpr ?_ _
    (List.prefix_refl _)
  intro calls chunk hcalls _ hflood
  obtain ⟨hstatus, -⟩ := floodAhead_iff.mp hflood
  cases calls with
  | nil =>
    obtain rfl : chunk = [0x01, 1, 0x61, 0x00] := by simpa using hcalls
    exact absurd hstatus (by decide)
  | cons call calls => simp at hcalls

/-- A CLOSE frame with the reason byte `0xff` and 200 bytes behind it, on a sink for payloads of at
most ten bytes. -/
theorem sink_flooded :
    ¬ ∀ calls, calls <+: [[0x88, 0x83, 0, 0, 0, 0, 0x03, 0xe8, 0xff] ++ List.replicate 200 0] →
      Bounded { maxPayloadLength := some 10 } 10
        (pushAll { maxPayloadLength := some 10 } {} calls).1 := by
  intro h
  have hpending := (h _ (List.prefix_refl _)).pending
  have hlen : (pushAll { maxPayloadLength := some 10 } {}
      [[0x88, 0x83, 0, 0, 0, 0, 0x03, 0xe8, 0xff] ++ List.replicate 200 0]).1.len = 200 := by
    decide +kernel
  rw [hlen] at hpending
  exact absurd hpending (by decide)

end Daloy.WebSocket
