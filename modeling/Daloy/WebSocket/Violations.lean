import Daloy.WebSocket.FrameHeader
import Daloy.WebSocket.SinkChunks

/-! # Violations and their reports

The rules a peer can break, stated on the bytes and on the frames: `HeaderFault` for what the
header of a frame shows, `FrameFault` for what a whole frame shows next to the message in progress.

* `parseFrame_error_iff`: `parseFrame` throws exactly on the header faults.
* `receive_reacts`: the receiver reports exactly the frame faults, except that the `TypeError` of a
  close reason that is not UTF-8 escapes.
-/

namespace Daloy.WebSocket
set_option autoImplicit false

open Daloy.Parsing Daloy.Unicode FrameSink

/-! ## What a header shows -/

/-- A rule that the header in front of the buffer breaks. -/
inductive HeaderFault (opts : FrameSinkOptions) (buf : Bytes) : Prop
  | reservedBits (hlen : 2 ≤ buf.length) (h : byteAt buf 0 &&& 0x70 ≠ 0)
  | unknownOpcode (hlen : 2 ≤ buf.length) (h : opcodeOf buf ∉ knownOpcodes)
  | fragmentedControl (hlen : 2 ≤ buf.length) (hctl : opcodeOf buf &&& 0x8 ≠ 0)
      (h : byteAt buf 0 &&& 0x80 = 0)
  | longControl (hlen : 2 ≤ buf.length) (hctl : opcodeOf buf &&& 0x8 ≠ 0)
      (h : byteAt buf 1 &&& 0x7f > wsMaxControlPayload)
  | unsafeLength {n : ℕ} (hn : declaredLength buf = some n) (h : n > maxSafeInteger)
  | tooLarge {n limit : ℕ} (hn : declaredLength buf = some n) (hdata : opcodeOf buf &&& 0x8 = 0)
      (hlimit : opts.maxPayloadLength = some limit) (h : n > limit)
  | unmasked {n : ℕ} (hn : declaredLength buf = some n) (hreq : opts.requireMask = true)
      (h : byteAt buf 1 &&& 0x80 = 0)

theorem two_le_of_declaredLength {buf : Bytes} {n : ℕ} (h : declaredLength buf = some n) :
    2 ≤ buf.length := by
  unfold declaredLength at h
  split at h
  · simp at h
  · omega

theorem parseFrame_eq_error {buf : Bytes} {opts : ParseFrameOptions} {e : WebSocketProtocolError} :
    parseFrame buf opts = .error e ↔ parseHeader buf opts = .error e := by
  unfold parseFrame
  split
  · next h => simp [h]
  · next h => simp [h]
  · next h =>
    simp only [h, reduceCtorEq, iff_false]
    split
    · simp
    · split <;> simp

theorem headerFault_of_error {opts : FrameSinkOptions} {buf : Bytes} {e : WebSocketProtocolError}
    (h : parseHeader buf opts.frame = .error e) : HeaderFault opts buf := by
  unfold parseHeader at h
  split at h
  · simp at h
  next hshort =>
  have hlen : 2 ≤ buf.length := by omega
  dsimp only at h
  split at h
  · next hrsv => exact .reservedBits hlen hrsv
  split at h
  · next hop =>
    by_cases hknown : opcodeOf buf ∈ knownOpcodes
    · by_cases hctl : opcodeOf buf &&& 0x8 ≠ 0
      · by_cases hfin : byteAt buf 0 &&& 0x80 = 0
        · exact .fragmentedControl hlen hctl hfin
        · by_cases hlong : byteAt buf 1 &&& 0x7f > wsMaxControlPayload
          · exact .longControl hlen hctl hlong
          · rw [checkOpcode_eq_ok.mpr ⟨hknown, fun _ => ⟨by simpa using hfin, by omega⟩⟩] at hop
            simp at hop
      · rw [checkOpcode_eq_ok.mpr ⟨hknown, fun hc => absurd hc hctl⟩] at hop
        simp at hop
    · exact .unknownOpcode hlen hknown
  · rw [readPayloadLength_eq hlen] at h
    cases hn : declaredLength buf with
    | none => simp [hn] at h
    | some n =>
      rw [hn] at h
      dsimp only at h
      by_cases hsafe : n > maxSafeInteger
      · exact .unsafeLength hn hsafe
      · rw [if_neg hsafe] at h
        dsimp only at h
        split at h
        · next hbig =>
          obtain ⟨hdata, hany⟩ := hbig
          cases hlimit : opts.maxPayloadLength with
          | none => simp [FrameSinkOptions.frame, hlimit] at hany
          | some limit =>
            exact .tooLarge hn hdata hlimit (by simpa [FrameSinkOptions.frame, hlimit] using hany)
        split at h
        · next hmask => exact .unmasked hn hmask.1 (by simpa using hmask.2)
        · simp at h

theorem parseHeader_eq_none {buf : Bytes} {opts : ParseFrameOptions}
    (h : parseHeader buf opts = .ok none) :
    buf.length < 2 ∨
      byteAt buf 0 &&& 0x70 = 0 ∧ declaredLength buf = none ∧
      checkOpcode (decide (byteAt buf 0 &&& 0x80 ≠ 0)) (opcodeOf buf) (byteAt buf 1 &&& 0x7f) =
        .ok () := by
  unfold parseHeader at h
  split at h
  · exact Or.inl ‹_›
  next hshort =>
  dsimp only at h
  split at h
  · simp at h
  next hrsv =>
  split at h
  · simp at h
  next hop =>
  refine Or.inr ⟨by simpa using hrsv, ?_, hop⟩
  rw [readPayloadLength_eq (by omega)] at h
  cases hn : declaredLength buf with
  | none => rfl
  | some n =>
    rw [hn] at h
    dsimp only at h
    by_cases hsafe : n > maxSafeInteger
    · rw [if_pos hsafe] at h
      simp at h
    · rw [if_neg hsafe] at h
      dsimp only at h
      split at h
      · simp at h
      split at h <;> simp at h

theorem error_of_headerFault {opts : FrameSinkOptions} {buf : Bytes} (hf : HeaderFault opts buf) :
    ∃ e, parseHeader buf opts.frame = .error e := by
  have hlen : 2 ≤ buf.length := by
    cases hf with
    | reservedBits hlen | unknownOpcode hlen | fragmentedControl hlen | longControl hlen =>
      exact hlen
    | unsafeLength hn | tooLarge hn | unmasked hn => exact two_le_of_declaredLength hn
  cases hp : parseHeader buf opts.frame with
  | error e => exact ⟨e, rfl⟩
  | ok o =>
    -- the header passed every check, against the rule it breaks
    exfalso
    obtain ⟨hrsv, hop, hsome⟩ : byteAt buf 0 &&& 0x70 = 0 ∧
        checkOpcode (decide (byteAt buf 0 &&& 0x80 ≠ 0)) (opcodeOf buf) (byteAt buf 1 &&& 0x7f) =
          .ok () ∧
        ∀ n, declaredLength buf = some n → n ≤ maxSafeInteger ∧
          (opcodeOf buf &&& 0x8 = 0 → ∀ limit, opts.maxPayloadLength = some limit → n ≤ limit) ∧
          (opts.requireMask = true → byteAt buf 1 &&& 0x80 ≠ 0) := by
      cases o with
      | none =>
        rcases parseHeader_eq_none hp with hshort | ⟨hrsv, hnone, hop⟩
        · omega
        · exact ⟨hrsv, hop, fun n hn => by simp [hnone] at hn⟩
      | some h =>
        obtain ⟨-, hfin, hopcode, hmasked, hrsv, hop, hread, hmax, hreq⟩ := parseHeader_eq_some hp
        rw [hfin, hopcode] at hop
        refine ⟨hrsv, hop, fun n hn => ?_⟩
        rw [readPayloadLength_eq hlen, hn] at hread
        dsimp only at hread
        split at hread
        · simp at hread
        · simp only [Except.ok.injEq, Option.some.injEq, Prod.mk.injEq] at hread
          obtain ⟨hpay, -⟩ := hread
          rw [← hpay, hopcode] at hmax
          refine ⟨by omega, hmax, fun hr => ?_⟩
          have hm := hreq hr
          rw [hmasked] at hm
          exact of_decide_eq_true hm
    obtain ⟨hknown, hcontrol⟩ := checkOpcode_eq_ok.mp hop
    cases hf with
    | reservedBits _ h => exact h hrsv
    | unknownOpcode _ h => exact h hknown
    | fragmentedControl _ hctl h => simpa [h] using (hcontrol hctl).1
    | longControl _ hctl h =>
      have := (hcontrol hctl).2
      omega
    | unsafeLength hn h =>
      have := (hsome _ hn).1
      omega
    | tooLarge hn hdata hlimit h =>
      have := (hsome _ hn).2.1 hdata _ hlimit
      omega
    | unmasked hn hreq h => exact (hsome _ hn).2.2 hreq h

theorem parseFrame_error_iff {opts : FrameSinkOptions} {buf : Bytes} :
    (∃ e, parseFrame buf opts.frame = .error e) ↔ HeaderFault opts buf := by
  simp only [parseFrame_eq_error]
  exact ⟨fun ⟨_, h⟩ => headerFault_of_error h, error_of_headerFault⟩

/-! ## What a frame shows -/

/-- A rule that a frame breaks next to the message `a` in progress. -/
inductive FrameFault (opts : FrameSinkOptions) (a : Assembly) (frame : ParsedFrame) : Prop
  | closeLength (hop : frame.opcode = WsOpcode.close) (h : frame.payload.length = 1)
  | closeCode (hop : frame.opcode = WsOpcode.close) (hlen : 2 ≤ frame.payload.length)
      (h : isValidWireCloseCode (closeCode frame.payload) = false)
  | closeReason (hop : frame.opcode = WsOpcode.close) (h : BadCloseReason frame.payload)
  | orphanContinuation (hop : frame.opcode = WsOpcode.continuation) (h : a.opcode = none)
  | interleavedMessage (hdata : frame.opcode &&& 0x8 = 0)
      (hop : frame.opcode ≠ WsOpcode.continuation) (h : a.opcode ≠ none)
  | tooManyFragments (hdata : frame.opcode &&& 0x8 = 0) (h : a.count + 1 > opts.fragmentCap)
  | tooLarge {limit : ℕ} (hdata : frame.opcode &&& 0x8 = 0)
      (hlimit : opts.maxPayloadLength = some limit) (h : (a.bytes ++ frame.payload).length > limit)
  | invalidText {opcode : ℕ} (hdata : frame.opcode &&& 0x8 = 0) (hfin : frame.fin = true)
      (hop : a.messageOpcode frame = .ok opcode) (htext : opcode ≠ WsOpcode.binary)
      (h : decodeUtf8 (a.bytes ++ frame.payload) = none)

/-- The reactions of the receiver, each with what it says about the frame. -/
inductive Reacts (opts : FrameSinkOptions) (a : Assembly) (frame : ParsedFrame) :
    Reaction Assembly SinkEvent → Prop
  | accepted {a' : Assembly} {out : List SinkEvent} (hout : ∀ e, .onProtocolError e ∉ out)
      (hok : ¬ FrameFault opts a frame) : Reacts opts a frame (.next a' out)
  | closing {code : ℕ} {reason : JsString} (hok : ¬ FrameFault opts a frame) :
      Reacts opts a frame (.halt a [.onClose code reason])
  | reported {e : WebSocketProtocolError} (hf : FrameFault opts a frame)
      (hgood : ¬ (frame.opcode = WsOpcode.close ∧ BadCloseReason frame.payload)) :
      Reacts opts a frame (.halt a [.onProtocolError e])
  | raised (hop : frame.opcode = WsOpcode.close) (hbad : BadCloseReason frame.payload) :
      Reacts opts a frame (.escape a)

theorem control_of_close {frame : ParsedFrame} (h : frame.opcode = WsOpcode.close) :
    frame.opcode &&& 0x8 ≠ 0 := by
  rw [h]
  decide

theorem FrameFault.close_of_control {opts : FrameSinkOptions} {a : Assembly} {frame : ParsedFrame}
    (hf : FrameFault opts a frame) (hctl : frame.opcode &&& 0x8 ≠ 0) :
    frame.opcode = WsOpcode.close := by
  cases hf with
  | closeLength hop | closeCode hop | closeReason hop => exact hop
  | orphanContinuation hop => exact absurd (by rw [hop]; rfl) hctl
  | interleavedMessage hdata | tooManyFragments hdata | tooLarge hdata | invalidText hdata =>
    exact absurd hdata hctl

theorem receive_close_reacts {opts : FrameSinkOptions} {a : Assembly} {frame : ParsedFrame}
    (hop : frame.opcode = WsOpcode.close) : Reacts opts a frame (a.receive opts frame) := by
  have hctl := control_of_close hop
  unfold Assembly.receive decodeClosePayload
  rw [if_pos hctl, if_pos hop]
  by_cases h0 : frame.payload.length = 0
  · rw [if_pos h0]
    refine .closing fun hf => ?_
    cases hf with
    | closeLength _ h => omega
    | closeCode _ h => omega
    | closeReason _ h => exact absurd h.1 (by omega)
    | orphanContinuation h => exact absurd (hop.symm.trans h) (by decide)
    | interleavedMessage h | tooManyFragments h | tooLarge h | invalidText h => exact hctl h
  rw [if_neg h0]
  by_cases h1 : frame.payload.length = 1
  · rw [if_pos h1]
    exact .reported (.closeLength hop h1) fun h => absurd h.2.1 (by omega)
  rw [if_neg h1]
  by_cases hcode : isValidWireCloseCode (closeCode frame.payload) = false
  · rw [if_pos hcode]
    exact .reported (.closeCode hop (by omega) hcode) fun h => by simp [h.2.2.1] at hcode
  rw [if_neg hcode]
  have hvalid : isValidWireCloseCode (closeCode frame.payload) = true := by simpa using hcode
  cases hd : decodeText (frame.payload.drop 2) with
  | none => exact .raised hop ⟨by omega, hvalid, decodeText_eq_none.mp hd⟩
  | some reason =>
    refine .closing fun hf => ?_
    cases hf with
    | closeLength _ h => exact h1 h
    | closeCode _ _ h => exact hcode h
    | closeReason _ h => simp [decodeText_eq_none.mpr h.2.2] at hd
    | orphanContinuation h => exact absurd (hop.symm.trans h) (by decide)
    | interleavedMessage h | tooManyFragments h | tooLarge h | invalidText h => exact hctl h

theorem receive_data_reacts {opts : FrameSinkOptions} {a : Assembly} {frame : ParsedFrame}
    (hdata : frame.opcode &&& 0x8 = 0) : Reacts opts a frame (a.receive opts frame) := by
  have hnot : ¬ (frame.opcode = WsOpcode.close ∧ BadCloseReason frame.payload) :=
    fun h => control_of_close h.1 hdata
  rw [Assembly.receive, if_neg (by simp [hdata]), Assembly.receiveData]
  cases hm : a.messageOpcode frame with
  | error e =>
    refine .reported ?_ hnot
    unfold Assembly.messageOpcode at hm
    cases ho : a.opcode with
    | none =>
      simp only [ho] at hm
      split at hm
      · next hcont => exact .orphanContinuation hcont ho
      · simp at hm
    | some opcode =>
      simp only [ho] at hm
      split at hm
      · simp at hm
      · next hcont => exact .interleavedMessage hdata hcont (by simp [ho])
  | ok opcode =>
    have hfits : ¬ (frame.opcode = WsOpcode.continuation ∧ a.opcode = none) ∧
        ¬ (frame.opcode ≠ WsOpcode.continuation ∧ a.opcode ≠ none) := by
      unfold Assembly.messageOpcode at hm
      cases ho : a.opcode <;> simp only [ho] at hm <;> split at hm <;> simp_all
    dsimp only
    unfold Assembly.grow Assembly.checkLimits
    by_cases hmany : a.count + 1 > opts.fragmentCap
    · rw [if_pos hmany]
      exact .reported (.tooManyFragments hdata hmany) hnot
    rw [if_neg hmany]
    by_cases hbig : opts.maxPayloadLength.any ((a.bytes ++ frame.payload).length > ·) = true
    · rw [if_pos hbig]
      cases hlimit : opts.maxPayloadLength with
      | none => simp [hlimit] at hbig
      | some limit =>
        exact .reported (.tooLarge hdata hlimit (by simpa [hlimit] using hbig)) hnot
    rw [if_neg hbig]
    -- within the limits, only the text of a finished message can still be wrong
    have hok (h : frame.fin = true → opcode ≠ WsOpcode.binary →
        decodeUtf8 (a.bytes ++ frame.payload) ≠ none) : ¬ FrameFault opts a frame := by
      intro hf
      cases hf with
      | closeLength hop | closeCode hop | closeReason hop => exact control_of_close hop hdata
      | orphanContinuation hop ho => exact hfits.1 ⟨hop, ho⟩
      | interleavedMessage _ hop ho => exact hfits.2 ⟨hop, ho⟩
      | tooManyFragments _ h' => exact hmany h'
      | tooLarge _ hlimit h' => exact hbig (by simpa [hlimit] using h')
      | invalidText _ hfin hop htext h' =>
        rw [hm] at hop
        obtain rfl := Except.ok.inj hop
        exact h hfin htext h'
    dsimp only
    split
    · next hfin => exact .accepted (by simp) (hok (by simp [hfin]))
    · next hfin =>
      unfold Assembly.complete
      split
      · next hbin => exact .accepted (by simp) (hok fun _ h => absurd hbin h)
      · next htext =>
        cases hd : decodeText (a.bytes ++ frame.payload) with
        | none =>
          exact .reported (.invalidText hdata (by simpa using hfin) hm htext
            (decodeText_eq_none.mp hd)) hnot
        | some text =>
          refine .accepted (by simp) (hok fun _ _ h => ?_)
          simp [decodeText_eq_none.mpr h] at hd

theorem receive_reacts (opts : FrameSinkOptions) (a : Assembly) (frame : ParsedFrame) :
    Reacts opts a frame (a.receive opts frame) := by
  by_cases hctl : frame.opcode &&& 0x8 ≠ 0
  · by_cases hop : frame.opcode = WsOpcode.close
    · exact receive_close_reacts hop
    · have hok : ¬ FrameFault opts a frame := fun hf => hop (hf.close_of_control hctl)
      rw [Assembly.receive, if_pos hctl, if_neg hop]
      split <;> exact .accepted (by simp) hok
  · exact receive_data_reacts (not_not.mp hctl)

end Daloy.WebSocket
