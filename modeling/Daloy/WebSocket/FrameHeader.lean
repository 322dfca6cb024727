import Daloy.WebSocket.FrameParser

/-! # What a frame header declares

The length field as one big-endian number, and the opcode check as a list of the opcodes there are.
-/

namespace Daloy.WebSocket
set_option autoImplicit false

/-! ## The length field -/

def bigEndian (bytes : Bytes) : ℕ := bytes.foldl (fun n b => n * 256 + b.toNat) 0

theorem bigEndian_concat (bytes : Bytes) (b : UInt8) :
    bigEndian (bytes ++ [b]) = bigEndian bytes * 256 + b.toNat := by
  rw [bigEndian, List.foldl_append]
  rfl

theorem byteAt_lt (buf : Bytes) (i : ℕ) : byteAt buf i < 256 := UInt8.toNat_lt _

theorem bigEndian_window_succ {buf : Bytes} {i n : ℕ} (h : i + n < buf.length) :
    bigEndian ((buf.drop i).take (n + 1)) =
      bigEndian ((buf.drop i).take n) * 256 + byteAt buf (i + n) := by
  rw [List.take_add_one, List.getElem?_drop, List.getElem?_eq_getElem h, Option.toList_some,
    bigEndian_concat, byteAt, List.getD_eq_getElem?_getD, List.getElem?_eq_getElem h,
    Option.getD_some]

def declaredLength (buf : Bytes) : Option ℕ :=
  if buf.length < 2 then none
  else if byteAt buf 1 &&& 0x7f = 126 then
    if 4 ≤ buf.length then some (bigEndian ((buf.drop 2).take 2)) else none
  else if byteAt buf 1 &&& 0x7f = 127 then
    if 10 ≤ buf.length then some (bigEndian ((buf.drop 2).take 8)) else none
  else some (byteAt buf 1 &&& 0x7f)

def lengthEnd (len7 : ℕ) : ℕ := if len7 = 126 then 4 else if len7 = 127 then 10 else 2

theorem readPayloadLength_eq {buf : Bytes} (hlen : 2 ≤ buf.length) :
    readPayloadLength buf (byteAt buf 1 &&& 0x7f) =
      match declaredLength buf with
      | none => .ok none
      | some n =>
        if n > maxSafeInteger then .error (.protocol "Frame payload exceeds Number.MAX_SAFE_INTEGER")
        else .ok (some (n, lengthEnd (byteAt buf 1 &&& 0x7f))) := by
  have h7 : byteAt buf 1 &&& 0x7f < 128 := Nat.lt_of_le_of_lt Nat.and_le_right (by decide)
  unfold readPayloadLength declaredLength lengthEnd
  rw [if_neg (Nat.not_lt.mpr hlen)]
  split
  · by_cases h4 : 4 ≤ buf.length
    · have hb := byteAt_lt buf 2
      have hb' := byteAt_lt buf 3
      have hn : (byteAt buf 2 <<< 8) ||| byteAt buf 3 = bigEndian ((buf.drop 2).take 2) := by
        rw [bigEndian_window_succ (by omega), bigEndian_window_succ (by omega), List.take_zero,
          bigEndian, List.foldl_nil, ← Nat.shiftLeft_add_eq_or_of_lt (by omega), Nat.shiftLeft_eq]
        dsimp only [Nat.reduceAdd]
        omega
      have hsmall : (byteAt buf 2 <<< 8) ||| byteAt buf 3 ≤ maxSafeInteger := by
        rw [← Nat.shiftLeft_add_eq_or_of_lt (by omega), Nat.shiftLeft_eq]
        unfold maxSafeInteger
        omega
      rw [if_neg (by omega), if_pos h4, ← hn]
      dsimp only
      rw [if_neg (by omega)]
    · rw [if_pos (by omega), if_neg h4]
  split
  · by_cases h10 : 10 ≤ buf.length
    · have hb : ∀ i, byteAt buf i < 256 := byteAt_lt buf
      have h2 := hb 2
      have h3 := hb 3
      have h4 := hb 4
      have h5 := hb 5
      have h6 := hb 6
      have h7' := hb 7
      have h8 := hb 8
      have h9 := hb 9
      have hn : bigEndian ((buf.drop 2).take 8) =
          (byteAt buf 2 * 0x1000000 + (byteAt buf 3 <<< 16) + (byteAt buf 4 <<< 8) + byteAt buf 5) *
              0x100000000 +
            (byteAt buf 6 * 0x1000000 + (byteAt buf 7 <<< 16) + (byteAt buf 8 <<< 8) +
              byteAt buf 9) := by
        simp (disch := omega) only [bigEndian_window_succ, Nat.shiftLeft_eq]
        rw [List.take_zero, bigEndian, List.foldl_nil]
        dsimp only [Nat.reduceAdd]
        omega
      have hhi : byteAt buf 2 * 0x1000000 + (byteAt buf 3 <<< 16) + (byteAt buf 4 <<< 8) +
          byteAt buf 5 > 0x1fffff ↔ bigEndian ((buf.drop 2).take 8) > maxSafeInteger := by
        simp only [hn, Nat.shiftLeft_eq, maxSafeInteger]
        omega
      rw [if_neg (by omega), if_pos h10]
      dsimp only
      rw [hn] at hhi ⊢
      simp only [hhi]
    · rw [if_pos (by omega), if_neg h10]
  · have hsmall : ¬ byteAt buf 1 &&& 0x7f > maxSafeInteger := by
      unfold maxSafeInteger
      omega
    dsimp only
    rw [if_neg hsmall]

/-! ## The opcode -/

abbrev opcodeOf (buf : Bytes) : ℕ := byteAt buf 0 &&& 0x0f

def knownOpcodes : List ℕ :=
  [WsOpcode.continuation, WsOpcode.text, WsOpcode.binary, WsOpcode.close, WsOpcode.ping,
    WsOpcode.pong]

theorem checkOpcode_eq_ok {fin : Bool} {opcode len7 : ℕ} :
    checkOpcode fin opcode len7 = .ok () ↔
      opcode ∈ knownOpcodes ∧
      (opcode &&& 0x8 ≠ 0 → fin = true ∧ len7 ≤ wsMaxControlPayload) := by
  simp only [knownOpcodes, List.mem_cons, List.not_mem_nil, or_false]
  unfold checkOpcode
  split
  · next hctl =>
    have hdata : ∀ op, op = WsOpcode.continuation ∨ op = WsOpcode.text ∨ op = WsOpcode.binary →
        op &&& 0x8 = 0 := by rintro op (rfl | rfl | rfl) <;> rfl
    split
    · next hfin => simp [hfin, hctl]
    split
    · next hlong =>
      simp only [reduceCtorEq, false_iff, not_and]
      intro _ hok
      have := (hok hctl).2
      omega
    split
    · next hunknown =>
      simp only [reduceCtorEq, false_iff, not_and]
      rintro hop
      exact absurd (hdata opcode (by tauto)) hctl
    · next hfin hlong hknown =>
      simp only [true_iff]
      exact ⟨by tauto, fun _ => ⟨by simpa using hfin, by omega⟩⟩
  · next hctl =>
    rw [not_not] at hctl
    have hcontrol : ∀ op, op = WsOpcode.close ∨ op = WsOpcode.ping ∨ op = WsOpcode.pong →
        op &&& 0x8 ≠ 0 := by rintro op (rfl | rfl | rfl) <;> decide
    split
    · next hunknown =>
      simp only [reduceCtorEq, false_iff, not_and]
      intro hop
      exact absurd hctl (hcontrol opcode (by tauto))
    · next hknown =>
      simp only [true_iff]
      exact ⟨by tauto, fun h => absurd hctl h⟩

end Daloy.WebSocket
