import Daloy.Foundations.Unicode

/-! # Base64

Nothing here mentions a program. Bytes are cut into groups of six bits (`sextets`), each of which is
one unit of the alphabet; the padding fills the last group of four.

* `encodeBase64`: the standard encoder, with padding.
* `decodeBase64`: a decoder that insists on the alphabet, the padding and the length.
* `decodeBase64_encode`: decoding what was encoded.
-/

namespace Daloy.Unicode
set_option autoImplicit false

def sextetUnit (n : ℕ) : UInt16 :=
  UInt16.ofNat (if n < 26 then 0x41 + n else if n < 52 then 0x61 + (n - 26)
    else if n < 62 then 0x30 + (n - 52) else if n = 62 then 0x2B else 0x2F)

def unitSextet (u : UInt16) : Option ℕ :=
  if 0x41 ≤ u.toNat ∧ u.toNat ≤ 0x5A then some (u.toNat - 0x41)
  else if 0x61 ≤ u.toNat ∧ u.toNat ≤ 0x7A then some (u.toNat - 0x61 + 26)
  else if 0x30 ≤ u.toNat ∧ u.toNat ≤ 0x39 then some (u.toNat - 0x30 + 52)
  else if u.toNat = 0x2B then some 62
  else if u.toNat = 0x2F then some 63
  else none

def sextets : List UInt8 → List ℕ
  | [] => []
  | [a] => [a.toNat / 4, a.toNat % 4 * 16]
  | [a, b] => [a.toNat / 4, a.toNat % 4 * 16 + b.toNat / 16, b.toNat % 16 * 4]
  | a :: b :: c :: bytes =>
    a.toNat / 4 :: (a.toNat % 4 * 16 + b.toNat / 16) :: (b.toNat % 16 * 4 + c.toNat / 64) ::
      c.toNat % 64 :: sextets bytes

def bytesOfSextets : List ℕ → List UInt8
  | a :: b :: c :: d :: rest =>
    UInt8.ofNat (a * 4 + b / 16) :: UInt8.ofNat (b % 16 * 16 + c / 4) ::
      UInt8.ofNat (c % 4 * 64 + d) :: bytesOfSextets rest
  | [a, b, c] => [UInt8.ofNat (a * 4 + b / 16), UInt8.ofNat (b % 16 * 16 + c / 4)]
  | [a, b] => [UInt8.ofNat (a * 4 + b / 16)]
  | _ => []

def paddingUnit : UInt16 := 0x3D

def encodeBase64 (bytes : List UInt8) : JsString :=
  (sextets bytes).map sextetUnit ++ List.replicate ((3 - bytes.length % 3) % 3) paddingUnit

/-- The bytes of a text of the alphabet with at most two units of padding and a length that is a
multiple of four. -/
def decodeBase64 (text : JsString) : Option (List UInt8) :=
  let body := text.takeWhile fun u => (unitSextet u).isSome
  let padding := text.dropWhile fun u => (unitSextet u).isSome
  if padding.length ≤ 2 ∧ (padding.all fun u => u = paddingUnit) ∧ text.length % 4 = 0 then
    some (bytesOfSextets (body.filterMap unitSextet))
  else none

theorem sextets_lt {bytes : List UInt8} {n : ℕ} (h : n ∈ sextets bytes) : n < 64 := by
  induction bytes using sextets.induct with
  | case1 => simp [sextets] at h
  | case2 a =>
    have := a.toNat_lt
    simp only [sextets, List.mem_cons, List.not_mem_nil, or_false] at h
    omega
  | case3 a b =>
    have := a.toNat_lt
    have := b.toNat_lt
    simp only [sextets, List.mem_cons, List.not_mem_nil, or_false] at h
    omega
  | case4 a b c bytes ih =>
    have := a.toNat_lt
    have := b.toNat_lt
    have := c.toNat_lt
    simp only [sextets, List.mem_cons] at h
    rcases h with h | h | h | h | h
    · omega
    · omega
    · omega
    · omega
    · exact ih h

theorem length_sextets (bytes : List UInt8) :
    ((sextets bytes).length + (3 - bytes.length % 3) % 3) % 4 = 0 := by
  induction bytes using sextets.induct with
  | case1 => rfl
  | case2 a => simp [sextets]
  | case3 a b => simp [sextets]
  | case4 a b c bytes ih =>
    simp only [sextets, List.length_cons]
    omega

theorem bytesOfSextets_sextets (bytes : List UInt8) : bytesOfSextets (sextets bytes) = bytes := by
  have hfirst (a : UInt8) {k : ℕ} (hk : k < 16) :
      UInt8.ofNat (a.toNat / 4 * 4 + (a.toNat % 4 * 16 + k) / 16) = a := by
    rw [show a.toNat / 4 * 4 + (a.toNat % 4 * 16 + k) / 16 = a.toNat by omega, UInt8.ofNat_toNat]
  have hsecond (b : UInt8) {k l : ℕ} (hk : k < 4) :
      UInt8.ofNat ((l * 16 + b.toNat / 16) % 16 * 16 + (b.toNat % 16 * 4 + k) / 4) = b := by
    have := b.toNat_lt
    rw [show (l * 16 + b.toNat / 16) % 16 * 16 + (b.toNat % 16 * 4 + k) / 4 = b.toNat by omega,
      UInt8.ofNat_toNat]
  have hthird (c : UInt8) {l : ℕ} :
      UInt8.ofNat ((l * 4 + c.toNat / 64) % 4 * 64 + c.toNat % 64) = c := by
    have := c.toNat_lt
    rw [show (l * 4 + c.toNat / 64) % 4 * 64 + c.toNat % 64 = c.toNat by omega, UInt8.ofNat_toNat]
  induction bytes using sextets.induct with
  | case1 => rfl
  | case2 a =>
    have ha := hfirst a (show 0 < 16 by omega)
    rw [Nat.add_zero] at ha
    rw [sextets, bytesOfSextets, ha]
  | case3 a b =>
    have := b.toNat_lt
    have hb := hsecond b (show 0 < 4 by omega) (l := a.toNat % 4)
    rw [Nat.add_zero] at hb
    rw [sextets, bytesOfSextets, hfirst a (by omega), hb]
  | case4 a b c bytes ih =>
    have := b.toNat_lt
    have := c.toNat_lt
    rw [sextets, bytesOfSextets, hfirst a (by omega), hsecond b (by omega), hthird, ih]

theorem unitSextet_sextetUnit {n : ℕ} (h : n < 64) : unitSextet (sextetUnit n) = some n := by
  have : ∀ m : Fin 64, unitSextet (sextetUnit m) = some m.val := by decide
  exact this ⟨n, h⟩

theorem filterMap_sextetUnit {ns : List ℕ} (h : ∀ n ∈ ns, n < 64) :
    (ns.map sextetUnit).filterMap unitSextet = ns := by
  induction ns with
  | nil => rfl
  | cons n ns ih =>
    rw [List.map_cons, List.filterMap_cons, unitSextet_sextetUnit (h n (List.mem_cons_self ..)),
      ih fun m hm => h m (List.mem_cons_of_mem _ hm)]

theorem decodeBase64_encode (bytes : List UInt8) : decodeBase64 (encodeBase64 bytes) = some bytes := by
  have hbody : ∀ u ∈ (sextets bytes).map sextetUnit, (unitSextet u).isSome = true := by
    intro u hu
    obtain ⟨n, hn, rfl⟩ := List.mem_map.mp hu
    rw [unitSextet_sextetUnit (sextets_lt hn)]
    rfl
  have hpadding : (unitSextet paddingUnit).isSome = false := by decide
  have htake : (encodeBase64 bytes).takeWhile (fun u => (unitSextet u).isSome) =
      (sextets bytes).map sextetUnit := by
    rw [encodeBase64, List.takeWhile_append_of_pos hbody]
    cases (3 - bytes.length % 3) % 3 with
    | zero => simp
    | succ k => simp [List.replicate_succ, hpadding]
  have hdrop : (encodeBase64 bytes).dropWhile (fun u => (unitSextet u).isSome) =
      List.replicate ((3 - bytes.length % 3) % 3) paddingUnit := by
    rw [encodeBase64, List.dropWhile_append_of_pos hbody]
    cases (3 - bytes.length % 3) % 3 with
    | zero => rfl
    | succ k => simp [List.replicate_succ, hpadding]
  have hlength : (encodeBase64 bytes).length % 4 = 0 := by
    rw [encodeBase64, List.length_append, List.length_map, List.length_replicate]
    exact length_sextets bytes
  have hvalues := filterMap_sextetUnit fun n (hn : n ∈ sextets bytes) => sextets_lt hn
  rw [decodeBase64, htake, hdrop, if_pos, hvalues, bytesOfSextets_sextets]
  refine ⟨?_, ?_, hlength⟩
  · rw [List.length_replicate]
    omega
  · simp

end Daloy.Unicode
