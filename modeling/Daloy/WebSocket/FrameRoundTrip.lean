import Daloy.WebSocket.FrameHeader

/-! # A legal frame is read back as it was encoded

`parseFrame_encodeFrame`: what `encodeFrame` writes, whatever stands behind it, is one item of the
frame parser, with the fields it was encoded from.
-/

namespace Daloy.WebSocket
set_option autoImplicit false

open Daloy.Parsing

/-! ## The header bytes -/

def lengthCode (len : ℕ) : ℕ := if len ≥ 65536 then 127 else if len > 125 then 126 else len

def extendedLength (len : ℕ) : Bytes := (lengthBytes false len).drop 1

theorem lengthCode_lt (len : ℕ) : lengthCode len < 128 := by
  unfold lengthCode
  split
  · omega
  split <;> omega

theorem lengthBytes_eq (masked : Bool) (len : ℕ) :
    lengthBytes masked len =
      UInt8.ofNat ((if masked then 0x80 else 0) ||| lengthCode len) :: extendedLength len := by
  unfold extendedLength lengthBytes lengthCode
  dsimp only
  split
  · rfl
  split <;> rfl

theorem and_low_byte (n : ℕ) : n &&& 0xff = n % 256 := Nat.and_two_pow_sub_one_eq_mod n 8

theorem toNat_low_byte (n : ℕ) : (UInt8.ofNat (n &&& 0xff)).toNat = n % 256 := by
  rw [and_low_byte]
  exact UInt8.toNat_ofNat_of_lt' (Nat.mod_lt _ (by decide))

theorem extendedLength_spec {len : ℕ} (hlen : len ≤ maxSafeInteger) :
    (extendedLength len).length = lengthEnd (lengthCode len) - 2 ∧
      (125 < len → bigEndian (extendedLength len) = len) := by
  unfold maxSafeInteger at hlen
  unfold extendedLength lengthBytes lengthCode lengthEnd
  dsimp only
  by_cases hbig : len ≥ 65536
  · rw [if_pos hbig, if_pos hbig]
    by_cases hhigh : len > 0xffffffff
    · rw [if_pos hhigh]
      refine ⟨rfl, fun _ => ?_⟩
      simp only [List.cons_append, List.nil_append, List.drop_succ_cons, List.drop_zero, bigEndian,
        List.foldl_cons, List.foldl_nil, toNat_low_byte, Nat.shiftRight_eq_div_pow]
      omega
    · rw [if_neg hhigh]
      refine ⟨rfl, fun _ => ?_⟩
      simp only [List.cons_append, List.nil_append, List.drop_succ_cons, List.drop_zero, bigEndian,
        List.foldl_cons, List.foldl_nil, toNat_low_byte, Nat.shiftRight_eq_div_pow, UInt8.toNat_zero]
      omega
  · rw [if_neg hbig, if_neg hbig]
    by_cases hmid : len > 125
    · rw [if_pos hmid, if_pos hmid]
      refine ⟨rfl, fun _ => ?_⟩
      simp only [List.drop_succ_cons, List.drop_zero, bigEndian, List.foldl_cons, List.foldl_nil,
        toNat_low_byte, Nat.shiftRight_eq_div_pow]
      omega
    · have h126 : len ≠ 126 := by omega
      have h127 : len ≠ 127 := by omega
      rw [if_neg hmid, if_neg hmid, if_neg h126, if_neg h127]
      exact ⟨rfl, fun h => absurd h hmid⟩

theorem length_byte_bits : ∀ (masked : Bool) (code : Fin 128),
    (UInt8.ofNat ((if masked then 0x80 else 0) ||| code.val)).toNat &&& 0x7f = code.val ∧
      decide ((UInt8.ofNat ((if masked then 0x80 else 0) ||| code.val)).toNat &&& 0x80 ≠ 0) =
        masked := by
  decide

theorem opcode_byte_bits : ∀ (fin : Bool) (opcode : Fin 16),
    (UInt8.ofNat ((if fin then 0x80 else 0) ||| opcode.val)).toNat &&& 0x0f = opcode.val ∧
      (UInt8.ofNat ((if fin then 0x80 else 0) ||| opcode.val)).toNat &&& 0x70 = 0 ∧
      decide ((UInt8.ofNat ((if fin then 0x80 else 0) ||| opcode.val)).toNat &&& 0x80 ≠ 0) =
        fin := by
  decide

/-! ## Masking -/

theorem applyMask_length (key bytes : Bytes) : (applyMask key bytes).length = bytes.length := by
  rw [applyMask, List.length_mapIdx]

theorem applyMask_applyMask (key bytes : Bytes) : applyMask key (applyMask key bytes) = bytes := by
  apply List.ext_getElem
  · rw [applyMask_length, applyMask_length]
  · intro i h h'
    simp only [applyMask, List.getElem_mapIdx]
    rw [UInt8.xor_assoc, UInt8.xor_self, UInt8.xor_zero]

/-! ## Reading the header back -/

theorem parseHeader_ok {buf : Bytes} {opts : ParseFrameOptions} {fin masked : Bool}
    {opcode code n : ℕ} (hlen : 2 ≤ buf.length)
    (hfin : decide (byteAt buf 0 &&& 0x80 ≠ 0) = fin) (hopcode : opcodeOf buf = opcode)
    (hmasked : decide (byteAt buf 1 &&& 0x80 ≠ 0) = masked)
    (hcode : byteAt buf 1 &&& 0x7f = code) (hrsv : byteAt buf 0 &&& 0x70 = 0)
    (hn : declaredLength buf = some n) (hsafe : n ≤ maxSafeInteger)
    (hop : checkOpcode fin opcode code = .ok ())
    (hmax : opcode &&& 0x8 = 0 → ∀ limit, opts.maxPayload = some limit → n ≤ limit)
    (hmask : opts.requireMask = true → masked = true) :
    parseHeader buf opts = .ok (some ⟨fin, opcode, masked, n, lengthEnd code⟩) := by
  subst hfin hopcode hmasked hcode
  have hfits : ¬ (byteAt buf 0 &&& 0x0f &&& 0x8 = 0 ∧ opts.maxPayload.any (n > ·) = true) := by
    rintro ⟨hdata, hany⟩
    cases hlimit : opts.maxPayload with
    | none => simp [hlimit] at hany
    | some limit =>
      have hle := hmax hdata limit hlimit
      simp only [hlimit, Option.any_some, decide_eq_true_eq] at hany
      omega
  have hmask' : ¬ (opts.requireMask = true ∧ decide (byteAt buf 1 &&& 0x80 ≠ 0) = false) := by
    rintro ⟨hreq, hno⟩
    rw [hmask hreq] at hno
    simp at hno
  unfold parseHeader
  dsimp only
  rw [if_neg (by omega), if_neg (by simpa using hrsv), hop, readPayloadLength_eq hlen, hn]
  dsimp only
  rw [if_neg (by omega)]
  dsimp only
  rw [if_neg hfits, if_neg hmask']

theorem declaredLength_encoded (b0 : UInt8) (masked : Bool) {len : ℕ} (hlen : len ≤ maxSafeInteger)
    (rest : Bytes) : declaredLength (b0 :: (lengthBytes masked len ++ rest)) = some len := by
  obtain ⟨hext, hvalue⟩ := extendedLength_spec hlen
  have hcode : byteAt (b0 :: (lengthBytes masked len ++ rest)) 1 &&& 0x7f = lengthCode len := by
    rw [lengthBytes_eq]
    exact (length_byte_bits masked ⟨_, lengthCode_lt len⟩).1
  have hdrop : (b0 :: (lengthBytes masked len ++ rest)).drop 2 = extendedLength len ++ rest := by
    rw [lengthBytes_eq]
    rfl
  have htotal : (b0 :: (lengthBytes masked len ++ rest)).length =
      2 + (extendedLength len).length + rest.length := by
    rw [lengthBytes_eq]
    simp only [List.length_cons, List.length_append]
    omega
  unfold declaredLength
  rw [hcode, hdrop, htotal, if_neg (by omega)]
  unfold lengthCode lengthEnd at *
  by_cases hbig : len ≥ 65536
  · have hwidth : (extendedLength len).length = 8 := by rw [hext, if_pos hbig]; rfl
    rw [if_pos hbig, if_neg (by decide), if_pos rfl, if_pos (by omega), List.take_left' hwidth,
      hvalue (by omega)]
  by_cases hmid : len > 125
  · have hwidth : (extendedLength len).length = 2 := by
      rw [hext, if_neg hbig, if_pos hmid]
      rfl
    rw [if_neg hbig, if_pos hmid, if_pos rfl, if_pos (by omega), List.take_left' hwidth,
      hvalue hmid]
  · have h126 : len ≠ 126 := by omega
    have h127 : len ≠ 127 := by omega
    rw [if_neg hbig, if_neg hmid, if_neg h126, if_neg h127]

/-! ## Frames -/

/-- A frame that a parser with these options takes. -/
structure Legal (opts : ParseFrameOptions) (f : EncodeFrameOptions) : Prop where
  known : f.opcode ∈ knownOpcodes
  control : f.opcode &&& 0x8 ≠ 0 → f.fin = true ∧ f.payload.length ≤ wsMaxControlPayload
  safe : f.payload.length ≤ maxSafeInteger
  fits : f.opcode &&& 0x8 = 0 → ∀ limit, opts.maxPayload = some limit → f.payload.length ≤ limit
  masked : opts.requireMask = true → f.mask.isSome = true

theorem knownOpcodes_lt {opcode : ℕ} (h : opcode ∈ knownOpcodes) : opcode < 16 := by
  simp only [knownOpcodes, List.mem_cons, List.not_mem_nil, or_false] at h
  rcases h with rfl | rfl | rfl | rfl | rfl | rfl <;> decide

/-- The bytes behind the length field: the mask key, if any, and the payload under it. -/
def frameBody (f : EncodeFrameOptions) : Bytes :=
  match f.mask with
  | some key => key.1 ++ applyMask key.1 f.payload
  | none => f.payload

theorem encodeFrame_legal {opts : ParseFrameOptions} {f : EncodeFrameOptions} (h : Legal opts f) :
    encodeFrame f = .ok (UInt8.ofNat ((if f.fin then 0x80 else 0) ||| f.opcode) ::
      (lengthBytes f.mask.isSome f.payload.length ++ frameBody f)) := by
  have hop : f.opcode &&& 0x0f = f.opcode := by
    rw [Nat.and_two_pow_sub_one_eq_mod f.opcode 4]
    exact Nat.mod_eq_of_lt (knownOpcodes_lt h.known)
  have hshort : ¬ (f.opcode &&& 0x8 ≠ 0 ∧ f.payload.length > wsMaxControlPayload) := by
    rintro ⟨hctl, hlong⟩
    have := (h.control hctl).2
    omega
  unfold encodeFrame
  dsimp only
  rw [hop, if_neg hshort]
  rfl

theorem parseHeader_encoded {opts : ParseFrameOptions} {f : EncodeFrameOptions} (hf : Legal opts f)
    (rest : Bytes) :
    parseHeader (UInt8.ofNat ((if f.fin then 0x80 else 0) ||| f.opcode) ::
        (lengthBytes f.mask.isSome f.payload.length ++ rest)) opts =
      .ok (some ⟨f.fin, f.opcode, f.mask.isSome, f.payload.length,
        lengthEnd (lengthCode f.payload.length)⟩) := by
  obtain ⟨hopcode, hrsv, hfin⟩ := opcode_byte_bits f.fin ⟨f.opcode, knownOpcodes_lt hf.known⟩
  obtain ⟨hcode, hmasked⟩ := length_byte_bits f.mask.isSome ⟨_, lengthCode_lt f.payload.length⟩
  have hdeclared := declaredLength_encoded
    (UInt8.ofNat ((if f.fin then 0x80 else 0) ||| f.opcode)) f.mask.isSome hf.safe rest
  have hop : checkOpcode f.fin f.opcode (lengthCode f.payload.length) = .ok () := by
    refine checkOpcode_eq_ok.mpr ⟨hf.known, fun hctl => ⟨(hf.control hctl).1, ?_⟩⟩
    have hshort := (hf.control hctl).2
    unfold wsMaxControlPayload at hshort ⊢
    unfold lengthCode
    rw [if_neg (by omega), if_neg (by omega)]
    exact hshort
  rw [lengthBytes_eq] at hdeclared ⊢
  exact parseHeader_ok (by simp) hfin hopcode hmasked hcode hrsv hdeclared hf.safe hop hf.fits
    hf.masked

theorem payloadIn_frameBody {f : EncodeFrameOptions} {h : FrameHeader} {buf rest : Bytes}
    (hbody : buf.drop h.offset = frameBody f ++ rest) (hmasked : h.masked = f.mask.isSome)
    (hlen : h.payloadLen = f.payload.length) :
    h.payloadIn buf = f.payload ∧ h.dataOffset + h.payloadLen = h.offset + (frameBody f).length := by
  unfold FrameHeader.payloadIn FrameHeader.dataOffset
  unfold frameBody at hbody ⊢
  rw [hmasked, hlen]
  cases hm : f.mask with
  | none =>
    rw [hm] at hbody
    dsimp only [Option.isSome_none] at hbody ⊢
    rw [if_neg Bool.false_ne_true, if_neg Bool.false_ne_true, hbody, List.take_left' rfl]
    exact ⟨rfl, rfl⟩
  | some key =>
    rw [hm] at hbody
    dsimp only [Option.isSome_some] at hbody ⊢
    have hkey : (buf.drop h.offset).take 4 = key.1 := by
      rw [hbody, List.append_assoc, List.take_left' key.2]
    have hview : (buf.drop (h.offset + 4)).take f.payload.length = applyMask key.1 f.payload := by
      rw [← List.drop_drop, hbody, List.append_assoc, List.drop_left' key.2,
        List.take_left' (applyMask_length _ _)]
    rw [if_pos rfl, if_pos rfl, hkey, hview, applyMask_applyMask, List.length_append, key.2,
      applyMask_length, Nat.add_assoc]
    exact ⟨rfl, rfl⟩

theorem parseFrame_encodeFrame {opts : ParseFrameOptions} {f : EncodeFrameOptions}
    (hf : Legal opts f) {bytes : Bytes} (henc : encodeFrame f = .ok bytes) (rest : Bytes) :
    (frameParser opts).parse (bytes ++ rest) =
      .item ⟨f.fin, f.opcode, f.payload, bytes.length⟩ bytes.length := by
  rw [encodeFrame_legal hf] at henc
  obtain rfl := Except.ok.inj henc
  obtain ⟨hext, -⟩ := extendedLength_spec hf.safe
  have hend : 2 ≤ lengthEnd (lengthCode f.payload.length) := by
    unfold lengthEnd
    split
    · omega
    split <;> omega
  -- the header takes the bytes up to `lengthEnd`
  have hdrop (tail : Bytes) :
      (UInt8.ofNat ((if f.fin then 0x80 else 0) ||| f.opcode) ::
        (lengthBytes f.mask.isSome f.payload.length ++ tail)).drop
          (lengthEnd (lengthCode f.payload.length)) = tail := by
    rw [lengthBytes_eq, List.cons_append, ← List.cons_append, ← List.cons_append]
    exact List.drop_left' (by simp only [List.length_cons]; omega)
  have htotal (tail : Bytes) :
      (UInt8.ofNat ((if f.fin then 0x80 else 0) ||| f.opcode) ::
        (lengthBytes f.mask.isSome f.payload.length ++ tail)).length =
          lengthEnd (lengthCode f.payload.length) + tail.length := by
    rw [lengthBytes_eq]
    simp only [List.length_cons, List.length_append]
    omega
  have hheader := parseHeader_encoded hf (frameBody f ++ rest)
  obtain ⟨hpayload, hconsumed⟩ := @payloadIn_frameBody f
    ⟨f.fin, f.opcode, f.mask.isSome, f.payload.length, lengthEnd (lengthCode f.payload.length)⟩ _
    rest (hdrop (frameBody f ++ rest)) rfl rfl
  dsimp only at hpayload hconsumed
  rw [List.cons_append, List.append_assoc, htotal (frameBody f)]
  refine frameVerdict_eq_item.mpr ⟨rfl, _, parseFrame_eq_some_iff.mpr ⟨_, hheader, ?_, ?_, rfl⟩⟩
  · rw [hconsumed, htotal, List.length_append]
    omega
  · rw [hpayload, hconsumed]

end Daloy.WebSocket
