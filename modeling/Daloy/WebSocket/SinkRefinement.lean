import Daloy.WebSocket.Assembly
import Daloy.WebSocket.SinkBuffers

/-! # `FrameSink` refines the receiver

`Open sink a p`: the sink holds the message `a` in progress and the pending input `p`. `push` on
such a sink does what the receiver does on `p ++ chunk` (`push_spec`): the same events, the same
message and input held afterwards, and an exception leaves it exactly where the receiver raises.
-/

namespace Daloy.WebSocket
set_option autoImplicit false

open Daloy.Parsing Daloy.Unicode

/-- The fields of a sink that hold the message in progress. -/
structure Holds (sink : FrameSink) (a : Assembly) : Prop where
  opcode : sink.fragmentOpcode = (a.opcode.map Int.ofNat).getD (-1)
  size : sink.fragmentBytes = a.bytes.length
  room : sink.fragmentBytes ≤ sink.msg.length
  bytes : sink.msg.take sink.fragmentBytes = a.bytes
  count : sink.fragmentCount = a.count
  started : a.count = 0 → a = .idle

/-- An open sink with the message `a` in progress and the input `p` pending. -/
structure Open (sink : FrameSink) (a : Assembly) (p : Bytes) : Prop where
  holds : Holds sink a
  notClosed : sink.closed = false
  inRange : sink.InRange
  pending : sink.pending = p

theorem Open.fresh : Open {} .idle [] where
  holds := ⟨rfl, rfl, Nat.le_refl _, rfl, rfl, fun _ => rfl⟩
  notClosed := rfl
  inRange := Nat.le_refl _
  pending := rfl

theorem Holds.congr {sink sink' : FrameSink} {a : Assembly} (h : Holds sink a)
    (hmsg : sink'.msg = sink.msg) (hop : sink'.fragmentOpcode = sink.fragmentOpcode)
    (hbytes : sink'.fragmentBytes = sink.fragmentBytes)
    (hcount : sink'.fragmentCount = sink.fragmentCount) : Holds sink' a where
  opcode := hop.trans h.opcode
  size := hbytes.trans h.size
  room := by rw [hbytes, hmsg]; exact h.room
  bytes := by rw [hbytes, hmsg]; exact h.bytes
  count := hcount.trans h.count
  started := h.started

namespace FrameSink

structure SameInput (sink sink' : FrameSink) : Prop where
  buf : sink'.buf = sink.buf
  off : sink'.off = sink.off
  len : sink'.len = sink.len
  closed : sink'.closed = sink.closed

theorem SameInput.refl (sink : FrameSink) : SameInput sink sink := ⟨rfl, rfl, rfl, rfl⟩

/-- A result of `handle` next to the receiver's reaction to the same frame. -/
def Matches (sink : FrameSink) (r : SinkResult) : Reaction Assembly SinkEvent → Prop
  | .next a out => Holds r.sink a ∧ SameInput sink r.sink ∧ r.events = out ∧ r.threw = none
  | .halt _ out =>
    (r.sink.closed = true ∧ r.events = out ∧ r.threw = none) ∨
      ∃ e, r.threw = some (.protocol e) ∧ out = r.events ++ [.onProtocolError e]
  | .escape a => Holds r.sink a ∧ SameInput sink r.sink ∧ r.events = [] ∧ r.threw = some .typeError

theorem matches_error {sink sink' : FrameSink} {a : Assembly} {e : WebSocketProtocolError} :
    Matches sink ⟨sink', [], some (.protocol e)⟩ (.halt a [.onProtocolError e]) :=
  Or.inr ⟨e, rfl, rfl⟩

theorem deliver_spec {sink sink' : FrameSink} {a : Assembly} {opcode : ℕ} (joined : Bytes)
    (hop : sink'.fragmentOpcode = Int.ofNat opcode) (hin : SameInput sink sink') :
    Matches sink (sink'.deliver joined)
      (a.report ((Assembly.complete opcode joined).map fun ev => (.idle, [ev]))) := by
  have hreset : Holds sink'.resetMessage .idle := ⟨rfl, rfl, Nat.le_refl _, rfl, rfl, fun _ => rfl⟩
  have hin' : SameInput sink sink'.resetMessage := ⟨hin.buf, hin.off, hin.len, hin.closed⟩
  have hbin : (sink'.fragmentOpcode = (WsOpcode.binary : ℤ)) ↔ opcode = WsOpcode.binary := by
    rw [hop]
    exact Int.ofNat_inj
  unfold deliver Assembly.complete
  by_cases hb : opcode = WsOpcode.binary
  · simp only [hbin, hb, if_true]
    exact ⟨hreset, hin', rfl, rfl⟩
  · simp only [hbin, hb, if_false]
    cases decodeText joined with
    | none => exact matches_error
    | some text => exact ⟨hreset, hin', rfl, rfl⟩

theorem handleControl_spec {sink : FrameSink} {a : Assembly} (h : Holds sink a)
    {opts : FrameSinkOptions} {frame : ParsedFrame} (hctl : frame.opcode &&& 0x8 ≠ 0) :
    Matches sink (handleControl sink frame) (a.receive opts frame) := by
  unfold handleControl Assembly.receive
  rw [if_pos hctl]
  split
  · cases hd : decodeClosePayload frame.payload with
    | error t =>
      cases t with
      | protocol e => exact matches_error
      | typeError => exact ⟨h, .refl sink, rfl, rfl⟩
      | rangeError => exact absurd hd (decodeClosePayload_ne_rangeError _)
    | ok cr => exact Or.inl ⟨rfl, rfl, rfl⟩
  · split
    · exact ⟨h, .refl sink, rfl, rfl⟩
    · exact ⟨h, .refl sink, rfl, rfl⟩

theorem handleFragment_spec {sink sink' : FrameSink} {a : Assembly} {opcode : ℕ}
    (opts : FrameSinkOptions) (frame : ParsedFrame) (hin : SameInput sink sink')
    (hop : sink'.fragmentOpcode = Int.ofNat opcode) (hsize : sink'.fragmentBytes = a.bytes.length)
    (hroom : sink'.fragmentBytes ≤ sink'.msg.length)
    (hbytes : sink'.msg.take sink'.fragmentBytes = a.bytes) (hcount : sink'.fragmentCount = a.count)
    (hstarted : a.count = 0 → a = .idle) :
    Matches sink (handleFragment opts sink' frame) (a.report (a.grow opts opcode frame)) := by
  have hlen : (a.bytes ++ frame.payload).length = sink'.fragmentBytes + frame.payload.length := by
    rw [List.length_append, hsize]
  unfold handleFragment Assembly.grow Assembly.checkLimits assertMessageSize
  dsimp only
  rw [hcount, hlen]
  by_cases hmany : a.count + 1 > opts.fragmentCap
  · simp only [hmany, if_true]
    exact matches_error
  by_cases hbig : opts.maxPayloadLength.any (sink'.fragmentBytes + frame.payload.length > ·) = true
  · simp only [hmany, hbig, if_true, if_false]
    exact matches_error
  simp only [hmany, hbig, if_false, Bool.false_eq_true]
  by_cases hwhole : frame.fin = true ∧ a.count + 1 = 1
  · -- an unfragmented message: nothing was held
    obtain ⟨hfin, hzero⟩ := hwhole
    obtain rfl : a = .idle := hstarted (by omega)
    simp only [hfin, Bool.true_eq_false, if_false, true_and, hzero, if_true, Assembly.bytes,
      List.nil_append]
    exact deliver_spec frame.payload hop ⟨hin.buf, hin.off, hin.len, hin.closed⟩
  -- a fragment: it goes behind the bytes held
  rw [if_neg hwhole]
  obtain ⟨msg, happ, hmroom, hmtake⟩ : ∃ msg, (if frame.payload.length > 0 then
      appendFragment opts { sink' with
        fragmentCount := a.count + 1
        fragmentBytes := sink'.fragmentBytes + frame.payload.length } frame.payload
      else some { sink' with
        fragmentCount := a.count + 1
        fragmentBytes := sink'.fragmentBytes + frame.payload.length }) =
        some { sink' with
          fragmentCount := a.count + 1
          fragmentBytes := sink'.fragmentBytes + frame.payload.length
          msg := msg } ∧
      sink'.fragmentBytes + frame.payload.length ≤ msg.length ∧
      msg.take (sink'.fragmentBytes + frame.payload.length) = a.bytes ++ frame.payload := by
    split
    · obtain ⟨msg, h1, h2, h3⟩ := appendFragment_spec opts
        { sink' with
          fragmentCount := a.count + 1
          fragmentBytes := sink'.fragmentBytes + frame.payload.length }
        frame.payload sink'.fragmentBytes rfl hroom
      exact ⟨msg, h1, h2, by rw [h3]; exact congrArg (· ++ frame.payload) hbytes⟩
    · next hempty =>
      have hnil : frame.payload = [] := List.length_eq_zero_iff.mp (by omega)
      exact ⟨sink'.msg, rfl, by simpa [hnil] using hroom, by simpa [hnil] using hbytes⟩
  rw [happ]
  dsimp only
  split
  · refine ⟨⟨hop, ?_, hmroom, ?_, rfl, ?_⟩, ⟨hin.buf, hin.off, hin.len, hin.closed⟩, rfl, rfl⟩
    · exact hlen.symm
    · exact hmtake
    · intro hc
      simp [Assembly.count] at hc
  · have hjoined : (if msg.length = sink'.fragmentBytes + frame.payload.length then msg
        else msg.take (sink'.fragmentBytes + frame.payload.length)) = a.bytes ++ frame.payload := by
      split
      · next heq => rw [← hmtake, ← heq, List.take_length]
      · exact hmtake
    rw [hjoined]
    exact deliver_spec _ hop ⟨hin.buf, hin.off, hin.len, hin.closed⟩

theorem handle_spec {sink : FrameSink} {a : Assembly} (h : Holds sink a)
    (opts : FrameSinkOptions) (frame : ParsedFrame) :
    Matches sink (handle opts sink frame) (a.receive opts frame) := by
  unfold handle
  by_cases hctl : frame.opcode &&& 0x8 ≠ 0
  · rw [if_pos hctl]
    exact handleControl_spec h hctl
  rw [if_neg hctl, Assembly.receive, if_neg hctl, Assembly.receiveData]
  cases a with
  | idle =>
    have hop : sink.fragmentOpcode = -1 := h.opcode
    by_cases hcont : frame.opcode = WsOpcode.continuation
    · simp only [hcont, hop, if_true, Assembly.messageOpcode, Assembly.opcode]
      exact matches_error
    · simp only [hcont, hop, if_false, Assembly.messageOpcode, Assembly.opcode, ne_eq,
        not_true_eq_false]
      exact handleFragment_spec opts frame ⟨rfl, rfl, rfl, rfl⟩ rfl h.size h.room h.bytes h.count
        h.started
  | gathering opcode bytes count =>
    have hop : sink.fragmentOpcode = Int.ofNat opcode := h.opcode
    have hne : sink.fragmentOpcode ≠ -1 := by rw [hop]; simp
    by_cases hcont : frame.opcode = WsOpcode.continuation
    · simp only [hcont, hne, if_true, if_false, Assembly.messageOpcode, Assembly.opcode]
      exact handleFragment_spec opts frame (.refl sink) hop h.size h.room h.bytes h.count h.started
    · simp only [hcont, hne, if_false, Assembly.messageOpcode, Assembly.opcode, ne_eq,
        not_false_eq_true, if_true]
      exact matches_error

/-! ## The loop and `push` -/

/-- The result of draining a sink next to the receiver's. -/
structure Follows (r : SinkResult) (d : Drained UInt8 Assembly SinkEvent) : Prop where
  going : d.status = .going → Open r.sink d.state d.pending ∧ r.events = d.out ∧ r.threw = none
  halted : d.status = .halted →
    (r.sink.closed = true ∧ r.events = d.out ∧ r.threw = none) ∨
      ∃ e, r.threw = some (.protocol e) ∧ d.out = r.events ++ [.onProtocolError e]
  escaped : d.status = .escaped →
    Open r.sink d.state d.pending ∧ r.events = d.out ∧ r.threw = some .typeError

theorem Follows.after {r : SinkResult} {d : Drained UInt8 Assembly SinkEvent}
    (h : Follows r d) (out : List SinkEvent) :
    Follows ⟨r.sink, out ++ r.events, r.threw⟩ (d.after out) where
  going hs := by
    obtain ⟨ho, he, ht⟩ := h.going hs
    exact ⟨ho, by rw [he]; rfl, ht⟩
  halted hs := by
    rcases h.halted hs with ⟨hc, he, ht⟩ | ⟨e, ht, he⟩
    · exact Or.inl ⟨hc, by rw [he]; rfl, ht⟩
    · exact Or.inr ⟨e, ht, by simp [Drained.after, he]⟩
  escaped hs := by
    obtain ⟨ho, he, ht⟩ := h.escaped hs
    exact ⟨ho, by rw [he]; rfl, ht⟩

theorem open_consume {sink sink' : FrameSink} {a a' : Assembly} {p view : Bytes} {n : ℕ}
    (h : Open sink a p) (hle : n ≤ p.length) (hview : view.length = p.length)
    (hrest : view.drop n = p.drop n) (hin : SameInput (sink.consume view n) sink')
    (hholds : Holds sink' a') : Open sink' a' (p.drop n) := by
  have hlen : p.length = sink.len := by rw [← h.pending, pending_length h.inRange]
  obtain ⟨hrange, hpend⟩ := consume_spec h.inRange view n (by omega)
    (by omega) (by rw [h.pending]; exact hrest)
  refine ⟨hholds, hin.closed.trans h.notClosed, ?_, ?_⟩
  · rw [InRange, hin.off, hin.len, hin.buf]
    exact hrange
  · rw [FrameSink.pending, hin.buf, hin.off, hin.len]
    exact hpend.trans (by rw [h.pending])

theorem pump_spec (opts : FrameSinkOptions) (turns : ℕ) (sink : FrameSink) (a : Assembly)
    (p : Bytes) (h : Open sink a p) (hturns : p.length < turns) :
    Follows (pump opts turns sink) (received opts a p) := by
  induction turns generalizing sink a p with
  | zero => omega
  | succ turns ih =>
    have hlen : p.length = sink.len := by rw [← h.pending, pending_length h.inRange]
    unfold pump
    split
    · rw [h.pending]
      cases hp : parseFrame p opts.frame with
      | error e =>
        rw [received, drained_reject (frameVerdict_eq_reject.mpr hp)]
        exact ⟨by simp, fun _ => Or.inr ⟨e, rfl, rfl⟩, by simp⟩
      | ok o =>
        cases o with
        | none =>
          rw [received, drained_incomplete (frameVerdict_eq_incomplete.mpr hp)]
          exact ⟨fun _ => ⟨h, rfl, rfl⟩, by simp, by simp⟩
        | some fv =>
          obtain ⟨frame, view⟩ := fv
          obtain ⟨hpos, hle, -, hview, hrest⟩ := parseFrame_eq_some hp
          have hitem : (frameParser opts.frame).parse p = .item frame frame.consumed :=
            frameVerdict_eq_item.mpr ⟨rfl, view, hp⟩
          have hconsumed : Holds (sink.consume view frame.consumed) a :=
            h.holds.congr rfl rfl rfl rfl
          have hm := handle_spec hconsumed opts frame
          dsimp only
          cases hr : a.receive opts frame with
          | next a' out =>
            rw [hr] at hm
            obtain ⟨hholds, hin, hev, hthrew⟩ := hm
            have hopen := open_consume h hle hview hrest hin hholds
            rw [hthrew, hopen.notClosed, received, drained_next hitem hr]
            have := (ih _ a' _ hopen (by rw [List.length_drop]; omega)).after out
            simpa only [Option.isSome_none, Bool.or_self, Bool.false_eq_true, if_false, hev] using this
          | halt a' out =>
            rw [hr] at hm
            rw [received, drained_halt hitem hr]
            rcases hm with ⟨hclosed, hev, hthrew⟩ | ⟨e, hthrew, hout⟩
            · rw [hthrew, hclosed, Bool.or_true, if_pos rfl]
              exact ⟨by simp, fun _ => Or.inl ⟨hclosed, hev, hthrew⟩, by simp⟩
            · rw [hthrew, Option.isSome_some, Bool.true_or, if_pos rfl]
              exact ⟨by simp, fun _ => Or.inr ⟨e, hthrew, hout⟩, by simp⟩
          | escape a' =>
            rw [hr] at hm
            obtain ⟨hholds, hin, hev, hthrew⟩ := hm
            have hopen := open_consume h hle hview hrest hin hholds
            rw [hthrew, Option.isSome_some, Bool.true_or, if_pos rfl, received,
              drained_escape hitem hr]
            exact ⟨by simp, by simp, fun _ => ⟨hopen, hev, hthrew⟩⟩
    · next hempty =>
      obtain rfl : p = [] := List.length_eq_zero_iff.mp (by omega)
      rw [received, drained_incomplete rfl]
      refine ⟨fun _ => ⟨⟨h.holds.congr rfl rfl rfl rfl, h.notClosed, ?_, ?_⟩, rfl, rfl⟩, by simp,
        by simp⟩
      · have : sink.len = 0 := by omega
        simp [InRange, this]
      · simp [FrameSink.pending]

/-- `push` next to the receiver on the pending input and the chunk. -/
structure Pushed (r : SinkResult) (d : Drained UInt8 Assembly SinkEvent) : Prop where
  events : r.events = d.out
  going : d.status = .going → Open r.sink d.state d.pending ∧ r.threw = none
  halted : d.status = .halted → r.sink.closed = true ∧ r.threw = none
  escaped : d.status = .escaped → Open r.sink d.state d.pending ∧ r.threw = some .typeError

theorem fill_spec {sink : FrameSink} {a : Assembly} {p : Bytes} (h : Open sink a p)
    (chunk : Bytes) :
    ∃ filled, sink.fill chunk = some filled ∧ Open filled a (p ++ chunk) ∧
      filled.len = (p ++ chunk).length := by
  have hlen : p.length = sink.len := by rw [← h.pending, pending_length h.inRange]
  unfold fill
  split
  · next hzero =>
    obtain rfl : p = [] := List.length_eq_zero_iff.mp (by omega)
    refine ⟨_, rfl, ⟨h.holds.congr rfl rfl rfl rfl, h.notClosed, ?_, ?_⟩, rfl⟩
    · simp [InRange]
    · simp [FrameSink.pending]
  · obtain ⟨buf, off, happ, hrange, hpend⟩ := append_spec h.inRange chunk
    refine ⟨_, happ, ⟨h.holds.congr rfl rfl rfl rfl, h.notClosed, hrange, ?_⟩, ?_⟩
    · rw [← h.pending]
      exact hpend
    · rw [List.length_append, hlen]

theorem push_spec (opts : FrameSinkOptions) {sink : FrameSink} {a : Assembly} {p : Bytes}
    (h : Open sink a p) (chunk : Bytes) :
    Pushed (sink.push opts chunk) (received opts a (p ++ chunk)) := by
  obtain ⟨filled, hfill, hopen, hlen⟩ := fill_spec h chunk
  have hfollow := pump_spec opts (filled.len + 1) filled a (p ++ chunk) hopen (by omega)
  rw [push, if_neg (by simp [h.notClosed]), hfill]
  dsimp only
  cases hs : (received opts a (p ++ chunk)).status with
  | going =>
    obtain ⟨ho, he, ht⟩ := hfollow.going hs
    rw [ht]
    exact ⟨he, fun _ => ⟨ho, ht⟩, by simp [hs], by simp [hs]⟩
  | halted =>
    rcases hfollow.halted hs with ⟨hc, he, ht⟩ | ⟨e, ht, he⟩
    · rw [ht]
      exact ⟨he, by simp [hs], fun _ => ⟨hc, ht⟩, by simp [hs]⟩
    · rw [ht]
      exact ⟨he.symm, by simp [hs], fun _ => ⟨rfl, rfl⟩, by simp [hs]⟩
  | escaped =>
    obtain ⟨ho, he, ht⟩ := hfollow.escaped hs
    rw [ht]
    exact ⟨he, by simp [hs], by simp [hs], fun _ => ⟨ho, ht⟩⟩

theorem push_closed (opts : FrameSinkOptions) {sink : FrameSink} (h : sink.closed = true)
    (chunk : Bytes) : sink.push opts chunk = ⟨sink, [], none⟩ := by
  rw [push, if_pos h]

theorem pushAll_closed (opts : FrameSinkOptions) {sink : FrameSink} (h : sink.closed = true)
    (chunks : List Bytes) : sink.pushAll opts chunks = (sink, [], []) := by
  induction chunks with
  | nil => rfl
  | cons chunk chunks ih => rw [pushAll, push_closed opts h]; simp [ih]

end FrameSink

end Daloy.WebSocket
