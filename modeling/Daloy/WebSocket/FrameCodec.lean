import Daloy.Foundations.Int32
import Daloy.WebSocket.FrameRoundTrip

/-! # `encodeFrame` and `parseFrame` are inverse

The length field again, with the 32-bit operators of the source. They agree with the arithmetic of
the model at every length.

* `lengthBytes32_eq`, `readPayloadLength32_eq`: no operator wraps.
* `lengthBytes_shortest`: no header that declares the same length is shorter.
-/

namespace Daloy.WebSocket
set_option autoImplicit false

open Daloy.Int32
open Daloy.Parsing

/-! ## The length field, operator by operator -/

/-- `lengthBytes`, as `encodeFrame` computes it. Dividing by a power of two is exact. -/
def lengthBytes32 (masked : Bool) (len : ℕ) : Bytes :=
  let maskBit : ℤ := if masked then 0x80 else 0
  if len ≥ 65536 then
    let high : Bytes :=
      if len > 0xffffffff then
        [toUint8 (band (len / 0x100000000000000 : ℕ) 0xff),
          toUint8 (band (len / 0x1000000000000 : ℕ) 0xff),
          toUint8 (band (len / 0x10000000000 : ℕ) 0xff),
          toUint8 (band (len / 0x100000000 : ℕ) 0xff)]
      else [0, 0, 0, 0]
    toUint8 (bor maskBit 127) :: high ++
      [toUint8 (band (len / 0x1000000 : ℕ) 0xff), toUint8 (band (shiftRight len 16) 0xff),
        toUint8 (band (shiftRight len 8) 0xff), toUint8 (band len 0xff)]
  else if len > 125 then
    [toUint8 (bor maskBit 126), toUint8 (band (shiftRight len 8) 0xff), toUint8 (band len 0xff)]
  else [toUint8 (bor maskBit len)]

def word32 (buf : Bytes) (i : ℕ) : ℤ :=
  byteAt buf i * 0x1000000 + shiftLeft (byteAt buf (i + 1)) 16 + shiftLeft (byteAt buf (i + 2)) 8 +
    byteAt buf (i + 3)

/-- `readPayloadLength`, as `parseFrame` computes it. -/
def readPayloadLength32 (buf : Bytes) (len7 : ℕ) :
    Except WebSocketProtocolError (Option (ℤ × ℕ)) :=
  if len7 = 126 then
    if buf.length < 2 + 2 then .ok none
    else .ok (some (bor (shiftLeft (byteAt buf 2) 8) (byteAt buf 3), 4))
  else if len7 = 127 then
    if buf.length < 2 + 8 then .ok none
    else if word32 buf 2 > 0x1fffff then
      .error (.protocol "Frame payload exceeds Number.MAX_SAFE_INTEGER")
    else .ok (some (word32 buf 2 * 0x100000000 + word32 buf 6, 10))
  else .ok (some (len7, 2))

theorem toUint8_band (n : ℕ) : toUint8 (band n 0xff) = UInt8.ofNat (n &&& 0xff) := by
  have hband : band n 0xff = (n &&& 0xff : ℕ) := band_natCast n (by decide)
  rw [hband, toUint8_natCast]

theorem toUint8_shiftRight (n : ℕ) {k : ℕ} (hk : k ≤ 24) :
    toUint8 (band (shiftRight n k) 0xff) = UInt8.ofNat ((n >>> k) &&& 0xff) := by
  rw [low_byte_shiftRight n hk, toUint8_natCast]

theorem toUint8_bor (masked : Bool) {n : ℕ} (hn : n < 128) :
    toUint8 (bor (if masked then 0x80 else 0) n) =
      UInt8.ofNat ((if masked then 0x80 else 0) ||| n) := by
  have hbor : bor ((if masked then 0x80 else 0 : ℕ) : ℤ) n =
      ((if masked then 0x80 else 0) ||| n : ℕ) :=
    bor_natCast (by split <;> omega) (by omega)
  rw [← toUint8_natCast, ← hbor]
  cases masked <;> rfl

theorem lengthBytes32_eq (masked : Bool) (len : ℕ) :
    lengthBytes32 masked len = lengthBytes masked len := by
  have h126 := toUint8_bor masked (show 126 < 128 by decide)
  have h127 := toUint8_bor masked (show 127 < 128 by decide)
  unfold lengthBytes32 lengthBytes
  dsimp only
  by_cases hbig : len ≥ 65536
  · rw [if_pos hbig, if_pos hbig]
    simp only [toUint8_band, toUint8_shiftRight len (show 16 ≤ 24 by decide),
      toUint8_shiftRight len (show 8 ≤ 24 by decide)]
    exact congrArg (· :: _ ++ _) h127
  rw [if_neg hbig, if_neg hbig]
  by_cases hmid : len > 125
  · rw [if_pos hmid, if_pos hmid, toUint8_band, toUint8_shiftRight len (show 8 ≤ 24 by decide)]
    exact congrArg (· :: _) h126
  · rw [if_neg hmid, if_neg hmid, toUint8_bor masked (by omega)]

theorem shiftLeft_byte (buf : Bytes) (i : ℕ) {k : ℕ} (hk : k ≤ 16) :
    shiftLeft (byteAt buf i) k = (byteAt buf i <<< k : ℕ) := by
  have hbyte := byteAt_lt buf i
  apply shiftLeft_natCast (by omega)
  rw [Nat.shiftLeft_eq]
  calc byteAt buf i * 2 ^ k ≤ 255 * 2 ^ 16 :=
        Nat.mul_le_mul (by omega) (Nat.pow_le_pow_right (by decide) hk)
    _ < 0x80000000 := by decide

theorem word32_eq (buf : Bytes) (i : ℕ) :
    word32 buf i = (byteAt buf i * 0x1000000 + (byteAt buf (i + 1) <<< 16) +
      (byteAt buf (i + 2) <<< 8) + byteAt buf (i + 3) : ℕ) := by
  rw [word32, shiftLeft_byte buf (i + 1) (by decide), shiftLeft_byte buf (i + 2) (by decide)]
  push_cast
  rfl

theorem readPayloadLength32_eq (buf : Bytes) (len7 : ℕ) :
    readPayloadLength32 buf len7 =
      (readPayloadLength buf len7).map (Option.map fun read => ((read.1 : ℤ), read.2)) := by
  unfold readPayloadLength32 readPayloadLength
  split
  · split
    · rfl
    · have hbyte := byteAt_lt buf 2
      have hbyte' := byteAt_lt buf 3
      have hshift : byteAt buf 2 <<< 8 < 0x80000000 := by
        rw [Nat.shiftLeft_eq]
        omega
      rw [shiftLeft_byte buf 2 (by decide), bor_natCast hshift (by omega)]
      rfl
  split
  · split
    · rfl
    rw [word32_eq, word32_eq]
    dsimp only
    split
    · next hbig =>
      rw [if_pos (by exact_mod_cast hbig)]
      rfl
    · next hbig =>
      rw [if_neg (by exact_mod_cast hbig)]
      simp only [Except.map, Option.map_some]
      push_cast
      rfl
  · rfl

/-! ## The shortest form -/

theorem lengthEnd_lengthCode (len : ℕ) :
    lengthEnd (lengthCode len) = if len ≥ 65536 then 10 else if len > 125 then 4 else 2 := by
  unfold lengthEnd lengthCode
  split
  · rfl
  split
  · rfl
  · rw [if_neg (by omega), if_neg (by omega)]

theorem lengthBytes_end (masked : Bool) {len : ℕ} (hlen : len ≤ maxSafeInteger) :
    1 + (lengthBytes masked len).length = lengthEnd (lengthCode len) := by
  obtain ⟨hext, -⟩ := extendedLength_spec hlen
  have hend : 2 ≤ lengthEnd (lengthCode len) := by
    rw [lengthEnd_lengthCode]
    split
    · omega
    split <;> omega
  rw [lengthBytes_eq, List.length_cons]
  omega

theorem lengthBytes_shortest (masked : Bool) {len : ℕ} (hlen : len ≤ maxSafeInteger)
    {buf : Bytes} {len7 stop : ℕ} (hcode : len7 < 128)
    (hread : readPayloadLength buf len7 = .ok (some (len, stop))) :
    1 + (lengthBytes masked len).length ≤ stop := by
  rw [lengthBytes_end masked hlen, lengthEnd_lengthCode]
  unfold readPayloadLength at hread
  split at hread
  · -- two bytes hold a length below 65536
    split at hread
    · simp at hread
    · simp only [Except.ok.injEq, Option.some.injEq, Prod.mk.injEq] at hread
      obtain ⟨hlen, rfl⟩ := hread
      have hbyte := byteAt_lt buf 2
      have hbyte' := byteAt_lt buf 3
      have hsmall : byteAt buf 2 <<< 8 ||| byteAt buf 3 < 65536 := by
        rw [← Nat.shiftLeft_add_eq_or_of_lt (by omega), Nat.shiftLeft_eq]
        omega
      split
      · omega
      split <;> omega
  split at hread
  · split at hread
    · simp at hread
    · dsimp only at hread
      split at hread
      · simp at hread
      · simp only [Except.ok.injEq, Option.some.injEq, Prod.mk.injEq] at hread
        obtain ⟨-, rfl⟩ := hread
        split
        · omega
        split <;> omega
  · simp only [Except.ok.injEq, Option.some.injEq, Prod.mk.injEq] at hread
    obtain ⟨rfl, rfl⟩ := hread
    split
    · omega
    split <;> omega

theorem readPayloadLength_lengthBytes (masked : Bool) {len : ℕ} (hlen : len ≤ maxSafeInteger)
    (b0 : UInt8) (rest : Bytes) :
    readPayloadLength (b0 :: (lengthBytes masked len ++ rest))
        (byteAt (b0 :: (lengthBytes masked len ++ rest)) 1 &&& 0x7f) =
      .ok (some (len, 1 + (lengthBytes masked len).length)) := by
  have hcode : byteAt (b0 :: (lengthBytes masked len ++ rest)) 1 &&& 0x7f = lengthCode len := by
    rw [lengthBytes_eq]
    exact (length_byte_bits masked ⟨_, lengthCode_lt len⟩).1
  have htwo : 2 ≤ (b0 :: (lengthBytes masked len ++ rest)).length := by
    rw [lengthBytes_eq]
    simp only [List.length_cons, List.length_append]
    omega
  rw [readPayloadLength_eq htwo, declaredLength_encoded b0 masked hlen rest, hcode,
    lengthBytes_end masked hlen]
  dsimp only
  rw [if_neg (by omega)]

/-! ## Frames and their prefixes -/

/-- The buffer after `parseFrame`, which writes only where it unmasks the payload of a frame. -/
def bufferAfter (buf : Bytes) (opts : ParseFrameOptions) : Bytes :=
  match parseFrame buf opts with
  | .ok (some (_, left)) => left
  | .ok none => buf
  | .error _ => buf

theorem parseFrame_of_prefix {opts : ParseFrameOptions} {f : EncodeFrameOptions}
    (hf : Legal opts f) {bytes front : Bytes} (henc : encodeFrame f = .ok bytes)
    (hfront : front <+: bytes) (hne : front ≠ bytes) : parseFrame front opts = .ok none := by
  obtain ⟨tail, rfl⟩ := hfront
  have hwhole := parseFrame_encodeFrame hf henc []
  rw [List.append_nil] at hwhole
  rw [← frameVerdict_eq_incomplete]
  cases hverdict : (frameParser opts).parse front with
  | incomplete => exact hverdict
  | reject e =>
    rw [(frameParser opts).reject_append hverdict tail] at hwhole
    cases hwhole
  | item g n =>
    -- a frame inside the prefix would be the frame, and end before it does
    have hn := ((frameParser opts).consumed_pos hverdict).2
    rw [(frameParser opts).item_append hverdict tail] at hwhole
    obtain ⟨-, hconsumed⟩ := Verdict.item.inj hwhole
    rw [List.length_append] at hconsumed
    have htail : tail = [] := List.eq_nil_of_length_eq_zero (by omega)
    exact absurd (by rw [htail, List.append_nil]) hne

/-- **The codec.** A legal frame, with whatever bytes behind it, is read back as it was encoded;
a proper prefix of it is incomplete and stays as it is. With the default options a frame is legal
when its opcode is known, its payload is below `2^53` bytes and, if it is a control frame, it is
whole and has at most 125. At every length the operators of the source compute the length field
without wrapping, and no header that is read as that length is shorter. -/
theorem codec_inverse {opts : ParseFrameOptions} {f : EncodeFrameOptions} (hf : Legal opts f) :
    (∃ bytes, encodeFrame f = .ok bytes ∧
      (∀ t, ∃ left, parseFrame (bytes ++ t) opts =
        .ok (some (⟨f.fin, f.opcode, f.payload, bytes.length⟩, left))) ∧
      ∀ front, front <+: bytes → front ≠ bytes →
        parseFrame front opts = .ok none ∧ bufferAfter front opts = front) ∧
    ∀ masked len, len < 0x20000000000000 →
      lengthBytes32 masked len = lengthBytes masked len ∧
      (∀ b0 rest, readPayloadLength32 (b0 :: (lengthBytes32 masked len ++ rest))
          (byteAt (b0 :: (lengthBytes32 masked len ++ rest)) 1 &&& 0x7f) =
        .ok (some ((len : ℤ), 1 + (lengthBytes32 masked len).length))) ∧
      ∀ buf len7 stop, len7 < 128 →
        readPayloadLength32 buf len7 = .ok (some ((len : ℤ), stop)) →
        1 + (lengthBytes32 masked len).length ≤ stop := by
  refine ⟨⟨_, encodeFrame_legal hf, ?_, ?_⟩, ?_⟩
  · intro t
    obtain ⟨-, left, hparse⟩ :=
      frameVerdict_eq_item.mp (parseFrame_encodeFrame hf (encodeFrame_legal hf) t)
    exact ⟨left, hparse⟩
  · intro front hfront hne
    have hnone := parseFrame_of_prefix hf (encodeFrame_legal hf) hfront hne
    exact ⟨hnone, by rw [bufferAfter, hnone]⟩
  · intro masked len hlen
    have hsafe : len ≤ maxSafeInteger := Nat.le_of_lt_succ hlen
    refine ⟨lengthBytes32_eq masked len, ?_, ?_⟩
    · intro b0 rest
      rw [lengthBytes32_eq, readPayloadLength32_eq, readPayloadLength_lengthBytes masked hsafe]
      rfl
    · intro buf len7 stop hcode hread
      rw [lengthBytes32_eq]
      rw [readPayloadLength32_eq] at hread
      cases hplain : readPayloadLength buf len7 with
      | error e =>
        rw [hplain] at hread
        cases hread
      | ok read =>
        rw [hplain] at hread
        obtain _ | ⟨n, stop'⟩ := read
        · cases hread
        · simp only [Except.map, Option.map_some, Except.ok.injEq, Option.some.injEq,
            Prod.mk.injEq] at hread
          obtain ⟨hn, rfl⟩ := hread
          obtain rfl := Int.ofNat.inj hn
          exact lengthBytes_shortest masked hsafe hcode hplain

def maskedHello : EncodeFrameOptions where
  opcode := WsOpcode.text
  payload := [72, 105]
  mask := some ⟨[1, 2, 3, 4], rfl⟩

theorem legal_maskedHello : Legal {} maskedHello where
  known := by decide
  control := by decide
  safe := by decide
  fits := fun _ _ h => nomatch h
  masked := fun h => nomatch h

theorem codec_inverse_example :
    encodeFrame maskedHello = .ok [0x81, 0x82, 1, 2, 3, 4, 73, 107] ∧
      parseFrame [0x81, 0x82, 1, 2, 3, 4, 73] {} = .ok none := by
  obtain ⟨⟨bytes, henc, -, hpre⟩, -⟩ := codec_inverse legal_maskedHello
  have hbytes : encodeFrame maskedHello = .ok [0x81, 0x82, 1, 2, 3, 4, 73, 107] := rfl
  obtain rfl := Except.ok.inj (henc.symm.trans hbytes)
  exact ⟨hbytes, (hpre _ (by decide) (by decide)).1⟩

end Daloy.WebSocket
