import Daloy.Egress.IpText
import Daloy.Foundations.Numerals
import Mathlib.Data.Nat.Digits.Lemmas

/-! # `ipRateLimitIdentity`

The key under which `src/ip-match.ts` counts the requests of an address.

* `ipRateLimitIdentity`: with the two ways past the parser for canonical dotted texts.
* `slowIdentity`: what it does with every other text.
-/

namespace Daloy.Egress
set_option autoImplicit false

open Daloy.Unicode Daloy.Text Daloy.Json

/-! ## The source -/

def canonicalLoop : JsString → ℕ → ℕ → ℕ → Bool
  | [], dots, _, digits => dots = 3 && 0 < digits
  | c :: s, dots, octet, digits =>
    if c = dot then
      if digits = 0 ∨ dots + 1 > 3 then false else canonicalLoop s (dots + 1) 0 0
    else if isDigit c then
      if 0 < digits ∧ octet = 0 then false
      else if digits + 1 > 3 ∨ octet * 10 + (c.toNat - 48) > 255 then false
      else canonicalLoop s dots (octet * 10 + (c.toNat - 48)) (digits + 1)
    else false

def isCanonicalDottedIPv4 (s : JsString) : Bool :=
  if s.length < 7 ∨ s.length > 15 then false else canonicalLoop s 0 0 0

/-- `text.slice(1, -1)`, when brackets are around it. -/
def unbracketed (text : JsString) : JsString :=
  if text.head? = some 0x5B ∧ text.getLast? = some 0x5D then (text.drop 1).dropLast else text

/-- `a.b.c.d`. -/
def dottedText (bytes : List UInt8) : JsString :=
  [dot].intercalate (bytes.map fun b => NumberText.write b.toNat)

def pairsOf : List UInt8 → List ℕ
  | high :: low :: bytes => (high.toNat * 256 + low.toNat) :: pairsOf bytes
  | _ => []

def identityText (parsed : ParsedIp) (ipv6Prefix : ℕ) : JsString :=
  match normalizeFamily parsed .v4 with
  | some v4 => dottedText v4
  | none => [colon].intercalate ((pairsOf (applyPrefixMask parsed.bytes ipv6Prefix)).map hexText) ++
      slash :: NumberText.write ipv6Prefix

/-- `ipRateLimitIdentity` behind its two fast ways. -/
def slowIdentity (ip : JsString) (ipv6Prefix : ℕ) : JsString :=
  let text := unbracketed (trim ip)
  match parseIp text with
  | none => text
  | some parsed => identityText parsed ipv6Prefix

def ipRateLimitIdentity (ip : JsString) (ipv6Prefix : ℕ := 64) : JsString :=
  if isCanonicalDottedIPv4 ip then ip
  else if ip.length > 7 ∧ js "::ffff:" <+: ip ∧ isCanonicalDottedIPv4 (ip.drop 7) then ip.drop 7
  else slowIdentity ip ipv6Prefix

/-! ## Canonical dotted texts -/

/-- The digits of an octet so far: no zero stands in front of another digit. -/
structure Canonical (part : JsString) : Prop where
  digits : ∀ u ∈ part, isDigit u = true
  value : decimal part ≤ 255
  short : part.length ≤ 3
  lead : part.head? = some zeroUnit → part = [zeroUnit]

theorem canonical_nil : Canonical [] := ⟨by simp, by decide, by decide, by simp⟩

theorem Canonical.append {part : JsString} {c : UInt16} (h : Canonical part) (hc : isDigit c = true)
    (hlead : ¬ (0 < part.length ∧ decimal part = 0)) (hshort : ¬ part.length + 1 > 3)
    (hvalue : ¬ decimal part * 10 + (c.toNat - 48) > 255) : Canonical (part ++ [c]) := by
  refine ⟨?_, ?_, ?_, ?_⟩
  · intro u hu
    obtain hu | hu := List.mem_append.mp hu
    · exact h.digits u hu
    · rwa [List.mem_singleton.mp hu]
  · rw [decimal_append]
    omega
  · rw [List.length_append, List.length_singleton]
    omega
  · intro hhead
    cases part with
    | nil =>
      rw [List.nil_append, List.head?_cons] at hhead
      rw [List.nil_append, Option.some.inj hhead]
    | cons u part =>
      have hu := h.lead (by simpa using hhead)
      rw [hu] at hlead
      exact absurd ⟨by decide, by decide⟩ hlead

theorem canonicalLoop_spec {s : JsString} {dots octet digits : ℕ}
    (h : canonicalLoop s dots octet digits = true) {part : JsString} (hpart : Canonical part)
    (hoctet : decimal part = octet) (hdigits : part.length = digits) :
    (List.splitOn dot (part ++ s)).length + dots = 4 ∧
      ∀ p ∈ List.splitOn dot (part ++ s), Canonical p ∧ p ≠ [] := by
  have hdot : ∀ {p : JsString}, Canonical p → dot ∉ p := by
    intro p hp hmem
    exact (isDigit_ne (hp.digits dot hmem)).1 rfl
  induction s generalizing dots octet digits part with
  | nil =>
    rw [canonicalLoop, Bool.and_eq_true, decide_eq_true_eq, decide_eq_true_eq] at h
    rw [List.append_nil, List.splitOn_eq_singleton (hdot hpart)]
    refine ⟨by rw [List.length_singleton]; omega, ?_⟩
    intro p hp
    rw [List.mem_singleton.mp hp]
    refine ⟨hpart, ?_⟩
    rintro rfl
    rw [List.length_nil] at hdigits
    omega
  | cons c s ih =>
    rw [canonicalLoop] at h
    split at h
    · rename_i hc
      split at h
      · cases h
      · rename_i hmore
        rw [hc, List.splitOn_append_cons_self_of_not_mem (hdot hpart)]
        obtain ⟨hlength, hrest⟩ := ih h canonical_nil rfl rfl
        rw [List.nil_append] at hlength hrest
        refine ⟨by rw [List.length_cons]; omega, ?_⟩
        intro p hp
        obtain rfl | hp := List.mem_cons.mp hp
        · refine ⟨hpart, ?_⟩
          rintro rfl
          rw [List.length_nil] at hdigits
          omega
        · exact hrest p hp
    · split at h
      · rename_i hc
        split at h
        · cases h
        · rename_i hlead
          split at h
          · cases h
          · rename_i hmore
            rw [not_or] at hmore
            subst hoctet hdigits
            have hnext := hpart.append hc hlead hmore.1 hmore.2
            have hrest := ih h hnext (decimal_append part c) (by simp)
            rwa [List.append_assoc, List.singleton_append] at hrest
      · cases h

theorem Canonical.write {part : JsString} (h : Canonical part) (hne : part ≠ []) :
    (NumberText.write (decimal part) : JsString) = part := write_decimal h.digits h.lead hne

theorem Canonical.isOctet {part : JsString} (h : Canonical part) (hne : part ≠ []) :
    IsOctet part := by
  refine ⟨?_, List.all_eq_true.mpr h.digits, h.value⟩
  have hpos := List.length_pos_iff.mpr hne
  have hshort := h.short
  simp only [List.mem_cons, List.not_mem_nil, or_false]
  omega

theorem canonical_quad {s : JsString} (h : isCanonicalDottedIPv4 s = true) :
    ∃ q : IPv4Text, q.text = s ∧ dottedText q.bytes = s := by
  rw [isCanonicalDottedIPv4] at h
  split at h
  · cases h
  · obtain ⟨hlength, hparts⟩ := canonicalLoop_spec h canonical_nil rfl rfl
    rw [List.nil_append] at hlength hparts
    refine ⟨⟨List.splitOn dot s, by omega, fun part hpart => ?_⟩, List.intercalate_splitOn dot, ?_⟩
    · exact (hparts part hpart).1.isOctet (hparts part hpart).2
    · have hwrite : ∀ part ∈ List.splitOn dot s,
          (NumberText.write (UInt8.ofNat (decimal part)).toNat : JsString) = part := by
        intro part hpart
        have hnat : (UInt8.ofNat (decimal part)).toNat = decimal part :=
          UInt8.toNat_ofNat_of_lt'
            (by simp only [UInt8.size]; have := (hparts part hpart).1.value; omega)
        rw [hnat]
        exact (hparts part hpart).1.write (hparts part hpart).2
      have hmap : ((List.splitOn dot s).map fun part => UInt8.ofNat (decimal part)).map
          (fun b => (NumberText.write b.toNat : JsString)) = List.splitOn dot s := by
        rw [List.map_map]
        exact (List.map_congr_left hwrite).trans (List.map_id _)
      rw [dottedText, IPv4Text.bytes]
      dsimp only
      rw [hmap, List.intercalate_splitOn]

theorem IPv4Text.plain (q : IPv4Text) : ∀ u ∈ q.text, isWhitespace u = false ∧ u ≠ 0x5B := by
  intro u hu
  obtain rfl | ⟨part, hpart, hu⟩ := mem_intercalate hu
  · decide
  · have hdigit := List.all_eq_true.mp (q.valid part hpart).2.1 u hu
    have hall : ∀ d : Fin 10, isWhitespace (digitUnit d) = false ∧ digitUnit d ≠ 0x5B := by decide
    simp only [isDigit, Bool.and_eq_true, decide_eq_true_eq] at hdigit
    have hsum : 0x30 + (u.toNat - 48) = u.toNat := by omega
    have hunit : digitUnit (u.toNat - 48) = u := by
      rw [digitUnit, hsum, UInt16.ofNat_toNat]
    rw [← hunit]
    exact hall ⟨u.toNat - 48, by omega⟩

theorem IPv4Text.text_ne_nil (q : IPv4Text) : q.text ≠ [] :=
  List.ne_nil_of_mem q.dot_mem

theorem unbracketed_trim {s : JsString} (hne : s ≠ [])
    (h : ∀ u ∈ s, isWhitespace u = false ∧ u ≠ 0x5B) : trim s = s ∧ unbracketed s = s := by
  obtain ⟨u, t, rfl⟩ := List.exists_cons_of_ne_nil hne
  constructor
  · refine trim_eq_self rfl (List.getLast?_eq_some_getLast hne) (h u List.mem_cons_self).1 ?_
    exact (h _ (List.getLast_mem hne)).1
  · rw [unbracketed, if_neg]
    rintro ⟨hhead, -⟩
    exact (h u List.mem_cons_self).2 (Option.some.inj hhead)

/-! ## The fast ways -/

theorem normalizeFamily_v4 (ip : ParsedIp) : normalizeFamily ip .v4 =
    if (unmapped ip).family = .v4 then some (unmapped ip).bytes else none := by
  rw [normalizeFamily_eq, readAs, if_pos rfl]

theorem slowIdentity_canonical {s : JsString} (h : isCanonicalDottedIPv4 s = true)
    (ipv6Prefix : ℕ) : slowIdentity s ipv6Prefix = s := by
  obtain ⟨q, htext, hdotted⟩ := canonical_quad h
  have hplain := q.plain
  have hne := q.text_ne_nil
  have hunits := q.units
  obtain ⟨ip, hparse, hfamily, hbytes⟩ := q.parse
  rw [htext] at hplain hne hunits hparse
  obtain ⟨htrim, hunbracketed⟩ := unbracketed_trim hne hplain
  have hcolon : colon ∉ s := fun hmem => hunits colon hmem rfl
  have hparseIp : parseIp s = some ip := by
    rw [parseIp, htrim, if_neg hcolon]
    exact hparse
  have hnormal : normalizeFamily ip .v4 = some q.bytes := by
    rw [normalizeFamily, if_pos hfamily, hbytes]
  rw [slowIdentity, htrim, hunbracketed, hparseIp]
  dsimp only
  rw [identityText, hnormal]
  exact hdotted

/-- `::ffff:` in front of a dotted text. -/
def mappedText (q : IPv4Text) : IPv6Text where
  head := []
  tail := some [js "ffff"]
  quad := some q
  valid := by
    intro group hgroup
    rw [List.nil_append, Option.getD_some, List.mem_singleton] at hgroup
    subst hgroup
    exact ⟨by decide, by decide⟩
  fits := by simp [quadWidth]
  full := by simp

theorem mappedText_text (q : IPv4Text) : (mappedText q).text = js "::ffff:" ++ q.text := by
  have hjs : js "::ffff:" = [colon, colon] ++ (js "ffff" ++ [colon]) := by decide
  show [colon].intercalate [] ++ [colon, colon] ++ IPv6Text.sideText [js "ffff"] (some q) = _
  rw [hjs, IPv6Text.sideText]
  simp [List.intercalate]

theorem mappedText_groups (q : IPv4Text) :
    (mappedText q).groups.flatMap groupBytes = List.replicate 10 0 ++ [0xFF, 0xFF] ++ q.bytes := by
  obtain ⟨a, b, c, d, ha, hb, hc, hd, hbytes, hvalue⟩ := q.shape
  have hhigh : q.value / 65536 = 256 * a + b := by omega
  have hsum : q.value = 65536 * (256 * a + b) + (256 * c + d) := by
    rw [hvalue]
    ring
  have hlow : q.value % 65536 = 256 * c + d := by
    rw [hsum, Nat.mul_add_mod, Nat.mod_eq_of_lt (by omega)]
  have hgroups : (mappedText q).groups = [0, 0, 0, 0, 0, 65535, 256 * a + b, 256 * c + d] := by
    have hffff : groupValue (js "ffff") = 65535 := by decide
    simp [IPv6Text.groups, mappedText, quadWidth, IPv4Text.pair, hhigh, hlow, hffff,
      List.replicate]
  have hbyte : ∀ m n : ℕ, n < 256 → groupBytes (256 * m + n) = [UInt8.ofNat m, UInt8.ofNat n] := by
    intro m n hn
    have hdiv : (256 * m + n) / 256 = m := by omega
    have hmod : (256 * m + n) % 256 = n := by omega
    rw [groupBytes, hdiv, hmod]
  rw [hgroups, hbytes]
  simp only [List.flatMap_cons, List.flatMap_nil, hbyte a b hb, hbyte c d hd, List.append_nil]
  rfl

theorem slowIdentity_mapped {s : JsString} (h : isCanonicalDottedIPv4 s = true)
    (ipv6Prefix : ℕ) : slowIdentity (js "::ffff:" ++ s) ipv6Prefix = s := by
  obtain ⟨q, htext, hdotted⟩ := canonical_quad h
  have hplain : ∀ u ∈ js "::ffff:" ++ s, isWhitespace u = false ∧ u ≠ 0x5B := by
    intro u hu
    obtain hu | hu := List.mem_append.mp hu
    · have hall : ∀ u ∈ js "::ffff:", isWhitespace u = false ∧ u ≠ 0x5B := by decide
      exact hall u hu
    · exact q.plain u (by rw [htext]; exact hu)
  have hne : js "::ffff:" ++ s ≠ [] :=
    List.append_ne_nil_of_left_ne_nil (by decide) s
  obtain ⟨htrim, hunbracketed⟩ := unbracketed_trim hne hplain
  obtain ⟨ip, hparse, hfamily, hbytes⟩ := (mappedText q).parse
  have hcolon := (mappedText q).colon_mem
  rw [mappedText_text, htext] at hparse hcolon
  rw [mappedText_groups] at hbytes
  have hparseIp : parseIp (js "::ffff:" ++ s) = some ip := by
    rw [parseIp, htrim, if_pos hcolon]
    exact hparse
  have hnormal : normalizeFamily ip .v4 = some q.bytes := by
    rw [normalizeFamily, if_neg (by rw [hfamily]; decide), if_pos, hbytes]
    · rfl
    · refine ⟨hfamily, rfl, ?_⟩
      rw [hbytes]
      rfl
  rw [slowIdentity, htrim, hunbracketed, hparseIp]
  dsimp only
  rw [identityText, hnormal]
  exact hdotted

theorem ipRateLimitIdentity_eq (ip : JsString) (ipv6Prefix : ℕ) :
    ipRateLimitIdentity ip ipv6Prefix = slowIdentity ip ipv6Prefix := by
  rw [ipRateLimitIdentity]
  split
  · rename_i h
    exact (slowIdentity_canonical h ipv6Prefix).symm
  · split
    · rename_i h
      obtain ⟨-, ⟨rest, rfl⟩, hrest⟩ := h
      have hdrop : (js "::ffff:" ++ rest).drop 7 = rest := List.drop_left' (by decide)
      rw [hdrop] at hrest ⊢
      exact (slowIdentity_mapped hrest ipv6Prefix).symm
    · rfl

/-! ## Identities of addresses -/

theorem dottedText_units (bytes : List UInt8) : ∀ u ∈ dottedText bytes, u ≠ colon := by
  intro u hu
  obtain rfl | ⟨part, hpart, hu⟩ := mem_intercalate hu
  · decide
  · obtain ⟨b, -, rfl⟩ := List.mem_map.mp hpart
    exact (isDigit_ne (write_digits b.toNat u hu)).2

theorem dottedText_injective {bytes bytes' : List UInt8} (hne : bytes ≠ []) (hne' : bytes' ≠ [])
    (h : dottedText bytes = dottedText bytes') : bytes = bytes' := by
  have hsplit : ∀ {l : List UInt8}, l ≠ [] → List.splitOn dot (dottedText l) =
      l.map fun b => (NumberText.write b.toNat : JsString) := by
    intro l hl
    refine List.splitOn_intercalate dot ?_ (by simpa using hl)
    intro part hpart hdot
    obtain ⟨b, -, rfl⟩ := List.mem_map.mp hpart
    exact (isDigit_ne (write_digits b.toNat dot hdot)).1 rfl
  have hmap := hsplit hne
  rw [h, hsplit hne'] at hmap
  refine (List.map_injective_iff.mpr ?_ hmap).symm
  intro b b' hb
  exact UInt8.toNat_inj.mp (write_injective hb)

theorem pairsOf_injective {bytes bytes' : List UInt8} (hlength : bytes.length = bytes'.length)
    (heven : bytes.length % 2 = 0) (h : pairsOf bytes = pairsOf bytes') : bytes = bytes' := by
  induction bytes using pairsOf.induct generalizing bytes' with
  | case1 high low bytes ih =>
    match bytes', hlength with
    | high' :: low' :: bytes', hlength =>
      rw [pairsOf, pairsOf, List.cons.injEq] at h
      simp only [List.length_cons] at hlength heven
      have hlt := low.toNat_lt
      have hlt' := low'.toNat_lt
      have hhigh : high.toNat = high'.toNat := by omega
      have hlow : low.toNat = low'.toNat := by omega
      rw [UInt8.toNat_inj.mp hhigh, UInt8.toNat_inj.mp hlow,
        ih (by omega) (by omega) h.2]
  | case2 bytes hshort =>
    match bytes, hshort, heven with
    | [], _, _ => exact (List.eq_nil_of_length_eq_zero hlength.symm).symm
    | [b], _, heven => simp at heven
    | high :: low :: bytes, hshort, _ => exact absurd rfl (hshort high low bytes)

theorem pairsOf_lt (bytes : List UInt8) : ∀ n ∈ pairsOf bytes, n < 65536 := by
  induction bytes using pairsOf.induct with
  | case1 high low bytes ih =>
    intro n hn
    rw [pairsOf] at hn
    obtain rfl | hn := List.mem_cons.mp hn
    · have hhigh := high.toNat_lt
      have hlow := low.toNat_lt
      omega
    · exact ih n hn
  | case2 bytes hshort =>
    intro n hn
    rw [pairsOf] at hn
    · cases hn
    · exact hshort

theorem hexTexts_injective {groups groups' : List ℕ} (hlt : ∀ n ∈ groups, n < 65536)
    (hlt' : ∀ n ∈ groups', n < 65536)
    (h : [colon].intercalate (groups.map hexText) = [colon].intercalate (groups'.map hexText)) :
    groups = groups' := by
  have hread : ∀ {l : List ℕ}, (∀ n ∈ l, n < 65536) →
      (groupsOf ([colon].intercalate (l.map hexText))).map groupValue = l := by
    intro l hl
    have hgroups : ∀ g ∈ l.map hexText, IsGroup g := by
      intro g hg
      obtain ⟨n, hn, rfl⟩ := List.mem_map.mp hg
      exact isGroup_hexText (hl n hn)
    rw [groupsOf_intercalate hgroups, List.map_map]
    exact (List.map_congr_left fun n _ => (hexText_spec n).1).trans (List.map_id _)
  rw [← hread hlt, h, hread hlt']

/-- Two addresses that share a key: one IPv4 address, or the first bits of IPv6 addresses. -/
def SameIdentity (ipv6Prefix : ℕ) (a b : ParsedIp) : Prop :=
  ((unmapped a).family = .v4 ∧ (unmapped b).family = .v4 ∧ (unmapped a).bytes = (unmapped b).bytes) ∨
    ((unmapped a).family = .v6 ∧ (unmapped b).family = .v6 ∧
      (bitsOf a.bytes).take ipv6Prefix = (bitsOf b.bytes).take ipv6Prefix)

theorem unmapped_family (ip : ParsedIp) : (unmapped ip).family = .v6 → ip.family = .v6 := by
  intro h
  unfold unmapped at h
  split at h
  · cases h
  · exact h

theorem applyPrefixMask_eq_iff {bytes bytes' : List UInt8} (hlength : bytes.length = bytes'.length)
    (bits : ℕ) : applyPrefixMask bytes bits = applyPrefixMask bytes' bits ↔
      (bitsOf bytes).take bits = (bitsOf bytes').take bits := by
  constructor
  · intro h
    have hbits := congrArg bitsOf h
    rw [bitsOf_applyPrefixMask, bitsOf_applyPrefixMask] at hbits
    refine (List.append_inj hbits ?_).1
    rw [List.length_take, List.length_take, length_bitsOf, length_bitsOf, hlength]
  · intro h
    apply bitsOf_injective
    · rw [length_applyPrefixMask, length_applyPrefixMask, hlength]
    · rw [bitsOf_applyPrefixMask, bitsOf_applyPrefixMask, h, hlength]

theorem identityText_eq_iff (a b : ParsedIp) (ipv6Prefix : ℕ) :
    identityText a ipv6Prefix = identityText b ipv6Prefix ↔ SameIdentity ipv6Prefix a b := by
  have hv6 : ∀ ip : ParsedIp, (unmapped ip).family = .v6 → identityText ip ipv6Prefix =
      [colon].intercalate ((pairsOf (applyPrefixMask ip.bytes ipv6Prefix)).map hexText) ++
        slash :: NumberText.write ipv6Prefix := by
    intro ip hip
    rw [identityText, normalizeFamily_v4, hip, if_neg (by decide)]
  have hv4 : ∀ ip : ParsedIp, (unmapped ip).family = .v4 →
      identityText ip ipv6Prefix = dottedText (unmapped ip).bytes := by
    intro ip hip
    rw [identityText, normalizeFamily_v4, if_pos hip]
  have hne : ∀ ip : ParsedIp, ip.family = .v4 → ip.bytes ≠ [] := by
    intro ip hip hnil
    have hsized := ip.sized
    rw [hnil, hip] at hsized
    cases hsized
  -- an IPv6 identity has a colon in it, an IPv4 identity has none
  have hcolon : ∀ ip : ParsedIp, (unmapped ip).family = .v6 →
      colon ∈ identityText ip ipv6Prefix := by
    intro ip hip
    have hlength : (applyPrefixMask ip.bytes ipv6Prefix).length = 16 := by
      rw [length_applyPrefixMask, ip.sized, unmapped_family ip hip]
      rfl
    rw [hv6 ip hip]
    match applyPrefixMask ip.bytes ipv6Prefix, hlength with
    | b₀ :: b₁ :: b₂ :: b₃ :: rest, _ =>
      rw [pairsOf, pairsOf, List.map_cons, List.map_cons, intercalate_cons_cons]
      simp
  rw [SameIdentity]
  cases hfamily : (unmapped a).family with
  | v4 =>
    cases hfamily' : (unmapped b).family with
    | v4 =>
      rw [hv4 a hfamily, hv4 b hfamily']
      simp only [true_and, reduceCtorEq, false_and, or_false]
      exact ⟨dottedText_injective (hne _ hfamily) (hne _ hfamily'), fun h => by rw [h]⟩
    | v6 =>
      simp only [reduceCtorEq, false_and, and_false, or_self, iff_false]
      intro h
      have hmem := hcolon b hfamily'
      rw [← h, hv4 a hfamily] at hmem
      exact dottedText_units _ colon hmem rfl
  | v6 =>
    cases hfamily' : (unmapped b).family with
    | v4 =>
      simp only [reduceCtorEq, false_and, and_false, or_self, iff_false]
      intro h
      have hmem := hcolon a hfamily
      rw [h, hv4 b hfamily'] at hmem
      exact dottedText_units _ colon hmem rfl
    | v6 =>
      have hlength : a.bytes.length = b.bytes.length := by
        rw [a.sized, b.sized, unmapped_family a hfamily, unmapped_family b hfamily']
      have hsixteen : a.bytes.length = 16 := by
        rw [a.sized, unmapped_family a hfamily]
        rfl
      rw [hv6 a hfamily, hv6 b hfamily']
      simp only [true_and, reduceCtorEq, false_and, false_or]
      rw [← applyPrefixMask_eq_iff hlength]
      constructor
      · intro h
        have hgroups := hexTexts_injective (pairsOf_lt _) (pairsOf_lt _)
          (List.append_cancel_right h)
        refine pairsOf_injective ?_ ?_ hgroups
        · rw [length_applyPrefixMask, length_applyPrefixMask, hlength]
        · rw [length_applyPrefixMask, hsixteen]
      · intro h
        rw [h]

/-- **The identity is a canonical key.** The fast ways give what the parser gives on every text, and
two texts of addresses, in brackets or not, have one identity exactly when they denote the same IPv4
address, mapped or not, or IPv6 addresses with the same first bits. -/
theorem identity_canonical :
    (∀ (ip : JsString) (ipv6Prefix : ℕ),
      ipRateLimitIdentity ip ipv6Prefix = slowIdentity ip ipv6Prefix) ∧
    ∀ (s t : JsString) (a b : ParsedIp) (ipv6Prefix : ℕ),
      parseIp (unbracketed (trim s)) = some a → parseIp (unbracketed (trim t)) = some b →
        (ipRateLimitIdentity s ipv6Prefix = ipRateLimitIdentity t ipv6Prefix ↔
          SameIdentity ipv6Prefix a b) := by
  refine ⟨ipRateLimitIdentity_eq, ?_⟩
  intro s t a b ipv6Prefix ha hb
  have hidentity : ∀ {s : JsString} {a : ParsedIp}, parseIp (unbracketed (trim s)) = some a →
      ipRateLimitIdentity s ipv6Prefix = identityText a ipv6Prefix := by
    intro s a ha
    rw [ipRateLimitIdentity_eq, slowIdentity, ha]
  rw [hidentity ha, hidentity hb, identityText_eq_iff]

end Daloy.Egress
