import Daloy.Foundations.Encodings

/-! # The segments of a token

A segment is base64 for URLs without padding. The decoder refuses an encoding that is not the
canonical one, where bits of the last unit are set that no byte has.

* `b64urlDecode_eq_some`: what is decoded is encoded back to the same segment.
-/

namespace Daloy.Jwt
set_option autoImplicit false

open Daloy.Unicode

def b64urlEncode (bytes : List UInt8) : JsString := base64Url bytes

def B64URL_ALPHABET : JsString :=
  js "ABCDEFGHIJKLMNOPQRSTUVWXYZabcdefghijklmnopqrstuvwxyz0123456789-_"

/-- Whether the unused bits of the last unit are set, or a unit is left over. -/
def isNotCanonical (input : JsString) : Bool :=
  let rem := input.length % 4
  let last := B64URL_ALPHABET.idxOf (input.getLastD 0)
  rem ≠ 0 && (rem = 1 || last &&& (if rem = 2 then 0x0f else 0x03) ≠ 0)

/-- `none` is the `invalid_token` of a segment. -/
def b64urlDecode (input : JsString) : Option (List UInt8) :=
  if !input.all isUrlUnit then none
  else if isNotCanonical input then none
  else
    let rem := input.length % 4
    let pad := if rem = 0 then [] else List.replicate (4 - rem) paddingUnit
    atob (fromUrlAlphabet input ++ pad)

/-! ## Segments as groups of six bits -/

theorem idxOf_urlSextetUnit {n : ℕ} (h : n < 64) : B64URL_ALPHABET.idxOf (urlSextetUnit n) = n := by
  have hall : ∀ k : Fin 64, B64URL_ALPHABET.idxOf (urlSextetUnit k.val) = k.val := by decide +kernel
  exact hall ⟨n, h⟩

theorem unitSextet_eq_some {u : UInt16} {n : ℕ} (h : unitSextet u = some n) :
    n < 64 ∧ sextetUnit n = u := by
  have hback : ∀ k, k = u.toNat → UInt16.ofNat k = u := by
    rintro k rfl
    exact UInt16.ofNat_toNat
  rw [unitSextet] at h
  rw [sextetUnit]
  split_ifs at h with hcapital hsmall hdigit hplus hslash
  · obtain rfl := Option.some.inj h
    exact ⟨by omega, by rw [if_pos (by omega)]; exact hback _ (by omega)⟩
  · obtain rfl := Option.some.inj h
    exact ⟨by omega, by rw [if_neg (by omega), if_pos (by omega)]; exact hback _ (by omega)⟩
  · obtain rfl := Option.some.inj h
    refine ⟨by omega, ?_⟩
    rw [if_neg (by omega), if_neg (by omega), if_pos (by omega)]
    exact hback _ (by omega)
  · obtain rfl := Option.some.inj h
    exact ⟨by omega, hback _ hplus.symm⟩
  · obtain rfl := Option.some.inj h
    exact ⟨by omega, hback _ hslash.symm⟩

theorem exists_sextet {u : UInt16} (h : isUrlUnit u = true) : ∃ n < 64, u = urlSextetUnit n := by
  simp only [isUrlUnit, Bool.or_eq_true, Bool.and_eq_true, decide_eq_true_eq] at h
  obtain (⟨⟨hsome, hplus⟩, hslash⟩ | rfl) | rfl := h
  · obtain ⟨n, hn⟩ := Option.isSome_iff_exists.mp hsome
    obtain ⟨hlt, rfl⟩ := unitSextet_eq_some hn
    refine ⟨n, hlt, ?_⟩
    rw [urlSextetUnit, if_neg hplus, if_neg hslash]
  · exact ⟨62, by decide, by decide⟩
  · exact ⟨63, by decide, by decide⟩

theorem exists_sextets {input : JsString} (h : input.all isUrlUnit = true) :
    ∃ ns : List ℕ, (∀ n ∈ ns, n < 64) ∧ input = ns.map urlSextetUnit := by
  induction input with
  | nil => exact ⟨[], by simp, rfl⟩
  | cons u input ih =>
    rw [List.all_cons, Bool.and_eq_true] at h
    obtain ⟨n, hn, rfl⟩ := exists_sextet h.1
    obtain ⟨ns, hns, rfl⟩ := ih h.2
    refine ⟨n :: ns, ?_, rfl⟩
    rw [List.forall_mem_cons]
    exact ⟨hn, hns⟩

def Canonical : List ℕ → Prop
  | [] => True
  | [_] => False
  | [_, b] => b % 16 = 0
  | [_, _, c] => c % 4 = 0
  | _ :: _ :: _ :: _ :: rest => Canonical rest

theorem sextets_bytesOfSextets {ns : List ℕ} (hlt : ∀ n ∈ ns, n < 64) (h : Canonical ns) :
    sextets (bytesOfSextets ns) = ns := by
  fun_induction Canonical ns with
  | case1 => rfl
  | case2 a => cases h
  | case3 a b =>
    have ha := hlt a (by simp)
    have hb := hlt b (by simp)
    rw [bytesOfSextets, sextets, UInt8.toNat_ofNat']
    congr 1
    · omega
    · congr 1
      omega
  | case4 a b c =>
    have ha := hlt a (by simp)
    have hb := hlt b (by simp)
    have hc := hlt c (by simp)
    rw [bytesOfSextets, sextets, UInt8.toNat_ofNat', UInt8.toNat_ofNat']
    congr 1
    · omega
    · congr 1
      · omega
      · congr 1
        omega
  | case5 a b c d rest ih =>
    have ha := hlt a (by simp)
    have hb := hlt b (by simp)
    have hc := hlt c (by simp)
    have hd := hlt d (by simp)
    have hrest := ih (fun n hn => hlt n (by simp [hn])) h
    rw [bytesOfSextets, sextets, hrest, UInt8.toNat_ofNat', UInt8.toNat_ofNat', UInt8.toNat_ofNat']
    congr 1
    · omega
    · congr 1
      · omega
      · congr 1
        · omega
        · congr 1
          omega

theorem canonical_sextets (bytes : List UInt8) : Canonical (sextets bytes) := by
  induction bytes using sextets.induct with
  | case1 => trivial
  | case2 a =>
    show a.toNat % 4 * 16 % 16 = 0
    omega
  | case3 a b =>
    show b.toNat % 16 * 4 % 4 = 0
    omega
  | case4 a b c bytes ih => exact ih

theorem canonical_iff (ns : List ℕ) :
    Canonical ns ↔ ns.length % 4 ≠ 1 ∧ (ns.length % 4 = 2 → ns.getLastD 0 % 16 = 0) ∧
      (ns.length % 4 = 3 → ns.getLastD 0 % 4 = 0) := by
  fun_induction Canonical ns with
  | case1 => simp
  | case2 a => simp
  | case3 a b => simp
  | case4 a b c => simp
  | case5 a b c d rest ih =>
    rw [ih]
    have hlength : (a :: b :: c :: d :: rest).length % 4 = rest.length % 4 := by
      simp only [List.length_cons]
      omega
    rw [hlength]
    cases rest with
    | nil => simp
    | cons e rest => simp

theorem isNotCanonical_iff {ns : List ℕ} (hlt : ∀ n ∈ ns, n < 64) :
    isNotCanonical (ns.map urlSextetUnit) = false ↔ Canonical ns := by
  rw [canonical_iff, isNotCanonical, List.length_map]
  obtain rfl | ⟨front, last, rfl⟩ := List.eq_nil_or_concat ns
  · simp
  · have hlast : B64URL_ALPHABET.idxOf (((front.concat last).map urlSextetUnit).getLastD 0) = last := by
      rw [List.concat_eq_append, List.map_append, List.map_singleton, List.getLastD_concat]
      exact idxOf_urlSextetUnit (hlt last (by simp))
    have hlast' : (front.concat last).getLastD 0 = last := by simp
    rw [hlast, hlast']
    have hsixteen : last &&& 0x0f = last % 16 := Nat.and_two_pow_sub_one_eq_mod last 4
    have hfour : last &&& 0x03 = last % 4 := Nat.and_two_pow_sub_one_eq_mod last 2
    have hrem : (front.concat last).length % 4 < 4 := Nat.mod_lt _ (by decide)
    generalize (front.concat last).length % 4 = rem at hrem
    obtain rfl | rfl | rfl | rfl : rem = 0 ∨ rem = 1 ∨ rem = 2 ∨ rem = 3 := by omega
    · simp
    · simp
    · simp [hsixteen]
    · simp [hfour]

theorem atob_append_padding {s : JsString} (h : IsAlphabet s) (hlength : s.length % 4 ≠ 1) :
    atob (s ++ if s.length % 4 = 0 then [] else List.replicate (4 - s.length % 4) paddingUnit) =
      atob s := by
  have hpadding : ∀ k, (List.replicate k paddingUnit).filter (fun u => !isAsciiWhitespace u) =
      List.replicate k paddingUnit := by
    intro k
    rw [List.filter_eq_self]
    intro u hu
    rw [List.eq_of_mem_replicate hu]
    decide
  have hbare : s.filter (fun u => !isAsciiWhitespace u) = s := by
    rw [List.filter_eq_self]
    intro u hu
    simp [(unitSextet_ne_padding (h u hu)).2]
  have hlast : ¬ [paddingUnit] <:+ s := by
    rintro ⟨front, rfl⟩
    exact (unitSextet_ne_padding (h paddingUnit (by simp))).1 rfl
  have hrem : s.length % 4 < 4 := Nat.mod_lt _ (by decide)
  obtain hzero | htwo | hthree : s.length % 4 = 0 ∨ s.length % 4 = 2 ∨ s.length % 4 = 3 := by omega
  · rw [if_pos hzero, List.append_nil]
  · have hfull : (s ++ List.replicate 2 paddingUnit).length % 4 = 0 := by
      rw [List.length_append, List.length_replicate]
      omega
    have hstrip : stripPadding (s ++ List.replicate 2 paddingUnit) = s := by
      rw [stripPadding, if_pos ⟨s, rfl⟩]
      simp [List.replicate_succ]
    have hnot : ¬ s.length % 4 = 0 := by omega
    rw [if_neg hnot, htwo, atob, atob, List.filter_append, hpadding, hbare, if_pos hfull, hstrip,
      if_neg hnot]
  · have hfull : (s ++ List.replicate 1 paddingUnit).length % 4 = 0 := by
      rw [List.length_append, List.length_replicate]
      omega
    have hstrip : stripPadding (s ++ List.replicate 1 paddingUnit) = s := by
      have hone : ¬ [paddingUnit, paddingUnit] <:+ s ++ List.replicate 1 paddingUnit := by
        intro hsuffix
        have hends : [paddingUnit] ++ [paddingUnit] <:+ s ++ [paddingUnit] := hsuffix
        exact hlast ((List.suffix_append_inj_of_length_eq rfl).mp hends).1
      rw [stripPadding, if_neg hone, if_pos ⟨s, rfl⟩]
      simp
    have hnot : ¬ s.length % 4 = 0 := by omega
    rw [if_neg hnot, hthree, atob, atob, List.filter_append, hpadding, hbare, if_pos hfull, hstrip,
      if_neg hnot]

theorem atob_padded {ns : List ℕ} (hlt : ∀ n ∈ ns, n < 64) (h : Canonical ns) :
    atob (fromUrlAlphabet (ns.map urlSextetUnit) ++
      if (ns.map urlSextetUnit).length % 4 = 0 then []
      else List.replicate (4 - (ns.map urlSextetUnit).length % 4) paddingUnit) =
        some (bytesOfSextets ns) := by
  have hunits : fromUrlAlphabet (ns.map urlSextetUnit) = ns.map sextetUnit := by
    rw [fromUrlAlphabet, List.map_map]
    refine List.map_congr_left fun n hn => ?_
    exact (List.cons.inj (urlSextetUnit_facts (hlt n hn)).2.2).1
  have halphabet : IsAlphabet (ns.map sextetUnit) := by
    intro u hu
    obtain ⟨n, hn, rfl⟩ := List.mem_map.mp hu
    rw [unitSextet_sextetUnit (hlt n hn)]
    rfl
  have hlength : (ns.map sextetUnit).length % 4 ≠ 1 := by
    rw [List.length_map]
    exact ((canonical_iff ns).mp h).1
  have hbare := atob_alphabet halphabet hlength
  rw [filterMap_sextetUnit hlt] at hbare
  have hpadded := atob_append_padding halphabet hlength
  rw [List.length_map] at hpadded
  rw [hunits, ← hbare, List.length_map]
  exact hpadded

theorem b64urlDecode_eq_some (input : JsString) (bytes : List UInt8) :
    b64urlDecode input = some bytes ↔ input = b64urlEncode bytes := by
  have hdecode : ∀ ns : List ℕ, (∀ n ∈ ns, n < 64) → Canonical ns →
      b64urlDecode (ns.map urlSextetUnit) = some (bytesOfSextets ns) := by
    intro ns hlt hcanonical
    have hall : (ns.map urlSextetUnit).all isUrlUnit = true := by
      rw [List.all_eq_true]
      intro u hu
      obtain ⟨n, hn, rfl⟩ := List.mem_map.mp hu
      exact (urlSextetUnit_facts (hlt n hn)).1
    rw [b64urlDecode, hall, (isNotCanonical_iff hlt).mpr hcanonical]
    exact atob_padded hlt hcanonical
  constructor
  · intro h
    have hall : input.all isUrlUnit = true := by
      by_contra hnot
      rw [b64urlDecode, Bool.eq_false_iff.mpr hnot] at h
      cases h
    obtain ⟨ns, hlt, rfl⟩ := exists_sextets hall
    have hcanonical : Canonical ns := by
      rw [← isNotCanonical_iff hlt, Bool.eq_false_iff]
      intro hnot
      rw [b64urlDecode, hall, hnot] at h
      cases h
    rw [hdecode ns hlt hcanonical, Option.some.injEq] at h
    rw [b64urlEncode, base64Url_eq, ← h, sextets_bytesOfSextets hlt hcanonical]
  · rintro rfl
    rw [b64urlEncode, base64Url_eq, hdecode _ (fun n hn => sextets_lt hn) (canonical_sextets bytes),
      bytesOfSextets_sextets]

end Daloy.Jwt
