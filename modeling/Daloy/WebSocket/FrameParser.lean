import Daloy.WebSocket.Frame

/-! # `parseFrame` is decided by a prefix of its input

The parser either wants more bytes, or its verdict on a buffer is its verdict on every longer
buffer that starts the same way. This makes it a `PrefixParser` whose items are frames.
-/

namespace Daloy.WebSocket
set_option autoImplicit false

open Daloy.Parsing

theorem byteAt_append (buf ys : Bytes) (i : ℕ) (h : i < buf.length) :
    byteAt (buf ++ ys) i = byteAt buf i := by
  unfold byteAt
  rw [List.getD_eq_getElem?_getD, List.getElem?_append_left h, List.getD_eq_getElem?_getD]

theorem readPayloadLength_append (buf ys : Bytes) (len7 : ℕ)
    (h : readPayloadLength buf len7 ≠ .ok none) :
    readPayloadLength (buf ++ ys) len7 = readPayloadLength buf len7 := by
  unfold readPayloadLength at h ⊢
  by_cases h126 : len7 = 126
  · simp only [h126, if_true] at h ⊢
    have hlen : ¬ buf.length < 2 + 2 := fun hl => h (by rw [if_pos hl])
    rw [if_neg hlen, if_neg (by rw [List.length_append]; omega), byteAt_append _ _ _ (by omega),
      byteAt_append _ _ _ (by omega)]
  · simp only [h126, if_false] at h ⊢
    by_cases h127 : len7 = 127
    · simp only [h127, if_true] at h ⊢
      have hlen : ¬ buf.length < 2 + 8 := fun hl => h (by rw [if_pos hl])
      have hbyte : ∀ i, i < 10 → byteAt (buf ++ ys) i = byteAt buf i :=
        fun i hi => byteAt_append _ _ _ (by omega)
      rw [if_neg hlen, if_neg (by rw [List.length_append]; omega)]
      simp only [hbyte 2 (by omega), hbyte 3 (by omega), hbyte 4 (by omega), hbyte 5 (by omega),
        hbyte 6 (by omega), hbyte 7 (by omega), hbyte 8 (by omega), hbyte 9 (by omega)]
    · simp only [h127, if_false]

theorem parseHeader_append (buf ys : Bytes) (opts : ParseFrameOptions)
    (h : parseHeader buf opts ≠ .ok none) :
    parseHeader (buf ++ ys) opts = parseHeader buf opts := by
  unfold parseHeader at h ⊢
  have hlen : ¬ buf.length < 2 := fun hl => h (by rw [if_pos hl])
  rw [if_neg hlen] at h ⊢
  rw [if_neg (by rw [List.length_append]; omega), byteAt_append _ _ _ (by omega),
    byteAt_append _ _ _ (by omega)]
  dsimp only at h ⊢
  split
  · rfl
  · next hrsv =>
    rw [if_neg hrsv] at h
    cases hop : checkOpcode (decide (byteAt buf 0 &&& 0x80 ≠ 0)) (byteAt buf 0 &&& 0x0f)
        (byteAt buf 1 &&& 0x7f) with
    | error e => rfl
    | ok u =>
      rw [hop] at h
      rw [readPayloadLength_append _ _ _ fun hl => h (by simp only [hl])]

theorem readPayloadLength_offset {buf : Bytes} {len7 n offset : ℕ}
    (h : readPayloadLength buf len7 = .ok (some (n, offset))) : 2 ≤ offset := by
  unfold readPayloadLength at h
  split at h
  · split at h
    · simp at h
    · simp only [Except.ok.injEq, Option.some.injEq, Prod.mk.injEq] at h
      omega
  split at h
  · split at h
    · simp at h
    · dsimp only at h
      split at h
      · simp at h
      · simp only [Except.ok.injEq, Option.some.injEq, Prod.mk.injEq] at h
        omega
  · simp only [Except.ok.injEq, Option.some.injEq, Prod.mk.injEq] at h
    omega

theorem parseHeader_eq_some {buf : Bytes} {opts : ParseFrameOptions} {h : FrameHeader}
    (hp : parseHeader buf opts = .ok (some h)) :
    2 ≤ buf.length ∧ h.fin = decide (byteAt buf 0 &&& 0x80 ≠ 0) ∧ h.opcode = byteAt buf 0 &&& 0x0f ∧
      h.masked = decide (byteAt buf 1 &&& 0x80 ≠ 0) ∧ byteAt buf 0 &&& 0x70 = 0 ∧
      checkOpcode h.fin h.opcode (byteAt buf 1 &&& 0x7f) = .ok () ∧
      readPayloadLength buf (byteAt buf 1 &&& 0x7f) = .ok (some (h.payloadLen, h.offset)) ∧
      (h.opcode &&& 0x8 = 0 → ∀ limit, opts.maxPayload = some limit → h.payloadLen ≤ limit) ∧
      (opts.requireMask = true → h.masked = true) := by
  unfold parseHeader at hp
  split at hp
  · simp at hp
  · next hlen =>
    dsimp only at hp
    split at hp
    · simp at hp
    · next hrsv =>
      split at hp
      · simp at hp
      · next hop =>
        split at hp
        · simp at hp
        · simp at hp
        · next n offset hread =>
          split at hp
          · simp at hp
          · next hmax =>
            split at hp
            · simp at hp
            · next hmask =>
              simp only [Except.ok.injEq, Option.some.injEq] at hp
              subst hp
              refine ⟨by omega, rfl, rfl, rfl, by simpa using hrsv, hop, hread, ?_, ?_⟩
              · intro hdata limit hlimit
                simp only [hdata, hlimit, Option.any_some, true_and, decide_eq_true_eq] at hmax
                exact Nat.le_of_not_lt hmax
              · intro hreq
                simp only [hreq, true_and, Bool.not_eq_false] at hmask
                exact hmask

theorem FrameHeader.payloadIn_length {h : FrameHeader} {buf : Bytes}
    (hlen : h.dataOffset + h.payloadLen ≤ buf.length) : (h.payloadIn buf).length = h.payloadLen := by
  have hview : ((buf.drop h.dataOffset).take h.payloadLen).length = h.payloadLen := by
    rw [List.length_take, List.length_drop]; omega
  unfold FrameHeader.payloadIn
  dsimp only
  split
  · rw [applyMask, List.length_mapIdx, hview]
  · exact hview

theorem FrameHeader.payloadIn_append {h : FrameHeader} {buf : Bytes} (ys : Bytes)
    (hlen : h.dataOffset + h.payloadLen ≤ buf.length) :
    h.payloadIn (buf ++ ys) = h.payloadIn buf := by
  have hview : ((buf ++ ys).drop h.dataOffset).take h.payloadLen =
      (buf.drop h.dataOffset).take h.payloadLen := by
    rw [List.drop_append_of_le_length (by omega),
      List.take_append_of_le_length (by rw [List.length_drop]; omega)]
  unfold FrameHeader.payloadIn
  dsimp only
  rw [hview]
  split
  · next hm =>
    rw [FrameHeader.dataOffset, if_pos hm] at hlen
    rw [List.drop_append_of_le_length (by omega),
      List.take_append_of_le_length (by rw [List.length_drop]; omega)]
  · rfl

theorem parseFrame_eq_some_iff {buf buf' : Bytes} {opts : ParseFrameOptions} {f : ParsedFrame} :
    parseFrame buf opts = .ok (some (f, buf')) ↔
      ∃ h, parseHeader buf opts = .ok (some h) ∧ h.dataOffset + h.payloadLen ≤ buf.length ∧
        f = ⟨h.fin, h.opcode, h.payloadIn buf, h.dataOffset + h.payloadLen⟩ ∧
        buf' = buf.take h.dataOffset ++ h.payloadIn buf ++
          buf.drop (h.dataOffset + h.payloadLen) := by
  unfold parseFrame
  cases hh : parseHeader buf opts with
  | error e => simp
  | ok o =>
    cases o with
    | none => simp
    | some h =>
      dsimp only
      split
      · next hmask =>
        have : h.dataOffset = h.offset + 4 := by rw [FrameHeader.dataOffset, if_pos hmask.1]
        simp only [Except.ok.injEq, reduceCtorEq, false_iff, Option.some.injEq]
        rintro ⟨h', rfl, hlen, -⟩
        omega
      split
      · next hlen =>
        simp only [Except.ok.injEq, reduceCtorEq, false_iff, Option.some.injEq]
        rintro ⟨h', rfl, hlen', -⟩
        omega
      · next hlen =>
        simp only [Except.ok.injEq, Option.some.injEq, Prod.mk.injEq]
        constructor
        · rintro ⟨rfl, rfl⟩
          exact ⟨h, rfl, by omega, rfl, rfl⟩
        · rintro ⟨h', rfl, -, rfl, rfl⟩
          exact ⟨rfl, rfl⟩

theorem parseFrame_eq_some {buf buf' : Bytes} {opts : ParseFrameOptions} {f : ParsedFrame}
    (hp : parseFrame buf opts = .ok (some (f, buf'))) :
    0 < f.consumed ∧ f.consumed ≤ buf.length ∧ f.payload.length ≤ f.consumed ∧
      buf'.length = buf.length ∧ buf'.drop f.consumed = buf.drop f.consumed := by
  obtain ⟨h, hh, hlen, rfl, rfl⟩ := parseFrame_eq_some_iff.mp hp
  have hoff := readPayloadLength_offset (parseHeader_eq_some hh).2.2.2.2.2.2.1
  have h2 : 2 ≤ h.dataOffset := by unfold FrameHeader.dataOffset; split <;> omega
  have hpay := FrameHeader.payloadIn_length hlen
  have htake : (buf.take h.dataOffset).length = h.dataOffset := by rw [List.length_take]; omega
  dsimp only
  refine ⟨by omega, hlen, by omega, ?_, ?_⟩
  · rw [List.length_append, List.length_append, htake, hpay, List.length_drop]; omega
  · rw [List.drop_left' (by rw [List.length_append, htake, hpay])]

theorem parseFrame_append_some {buf buf' : Bytes} {opts : ParseFrameOptions} {f : ParsedFrame}
    (hp : parseFrame buf opts = .ok (some (f, buf'))) (ys : Bytes) :
    parseFrame (buf ++ ys) opts = .ok (some (f, buf' ++ ys)) := by
  obtain ⟨h, hh, hlen, rfl, rfl⟩ := parseFrame_eq_some_iff.mp hp
  refine parseFrame_eq_some_iff.mpr ⟨h, ?_, ?_, ?_, ?_⟩
  · rw [parseHeader_append _ _ _ (by rw [hh]; simp), hh]
  · rw [List.length_append]; omega
  · rw [FrameHeader.payloadIn_append ys hlen]
  · rw [FrameHeader.payloadIn_append ys hlen, List.take_append_of_le_length (by omega),
      List.drop_append_of_le_length (by omega), List.append_assoc]

theorem parseFrame_append_error {buf : Bytes} {opts : ParseFrameOptions}
    {e : WebSocketProtocolError} (hp : parseFrame buf opts = .error e) (ys : Bytes) :
    parseFrame (buf ++ ys) opts = .error e := by
  unfold parseFrame at hp ⊢
  cases hh : parseHeader buf opts with
  | error e' =>
    rw [parseHeader_append _ _ _ (by rw [hh]; simp), hh]
    rwa [hh] at hp
  | ok o =>
    cases o with
    | none => simp [hh] at hp
    | some h =>
      rw [hh] at hp
      dsimp only at hp
      split at hp
      · simp at hp
      split at hp <;> simp at hp

/-- The verdict of `parseFrame` without the buffer it leaves. -/
def frameVerdict (opts : ParseFrameOptions) (buf : Bytes) :
    Verdict WebSocketProtocolError ParsedFrame :=
  match parseFrame buf opts with
  | .error e => .reject e
  | .ok none => .incomplete
  | .ok (some (f, _)) => .item f f.consumed

theorem frameVerdict_eq_reject {opts : ParseFrameOptions} {buf : Bytes}
    {e : WebSocketProtocolError} :
    frameVerdict opts buf = .reject e ↔ parseFrame buf opts = .error e := by
  unfold frameVerdict
  split <;> simp_all

theorem frameVerdict_eq_incomplete {opts : ParseFrameOptions} {buf : Bytes} :
    frameVerdict opts buf = .incomplete ↔ parseFrame buf opts = .ok none := by
  unfold frameVerdict
  split <;> simp_all

theorem frameVerdict_eq_item {opts : ParseFrameOptions} {buf : Bytes} {f : ParsedFrame} {n : ℕ} :
    frameVerdict opts buf = .item f n ↔
      n = f.consumed ∧ ∃ buf', parseFrame buf opts = .ok (some (f, buf')) := by
  unfold frameVerdict
  split
  · simp_all
  · simp_all
  · next f' buf' hp =>
    simp only [Verdict.item.injEq, hp, Except.ok.injEq, Option.some.injEq, Prod.mk.injEq]
    constructor
    · rintro ⟨rfl, rfl⟩
      exact ⟨rfl, buf', rfl, rfl⟩
    · rintro ⟨rfl, _, rfl, _⟩
      exact ⟨rfl, rfl⟩

def frameParser (opts : ParseFrameOptions) :
    PrefixParser UInt8 WebSocketProtocolError ParsedFrame where
  parse := frameVerdict opts
  parse_nil := rfl
  consumed_pos := by
    intro buf f n h
    obtain ⟨rfl, buf', hp⟩ := frameVerdict_eq_item.mp h
    exact ⟨(parseFrame_eq_some hp).1, (parseFrame_eq_some hp).2.1⟩
  item_append := by
    intro buf f n h ys
    obtain ⟨rfl, buf', hp⟩ := frameVerdict_eq_item.mp h
    exact frameVerdict_eq_item.mpr ⟨rfl, _, parseFrame_append_some hp ys⟩
  reject_append := by
    intro buf e h ys
    exact frameVerdict_eq_reject.mpr (parseFrame_append_error (frameVerdict_eq_reject.mp h) ys)

end Daloy.WebSocket
