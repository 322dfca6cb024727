import Daloy.Foundations.Base64
import Mathlib.Data.List.DropRight
import Mathlib.Data.Nat.Bitwise

/-! # Bytes as texts

Nothing here mentions a program. The forgiving decoder of base64, the alphabet for URLs, and the
comparison that looks at every position.

* `atob_length`: how many bytes a text of the alphabet stands for.
* `atob_base64Url`: decoding what was encoded for a URL.
* `sameEverywhere_iff`: the comparison is equality.
-/

namespace Daloy.Unicode
set_option autoImplicit false

/-! ## ASCII texts -/

theorem isPlain_ascii {u : UInt16} (h : u.toNat < 0x80) : IsPlain u := by
  simp only [IsPlain, isHighSurrogate, isLowSurrogate, Bool.and_eq_false_iff,
    decide_eq_false_iff_not]
  omega

theorem encodeText_append {a : JsString} (h : ∀ u ∈ a, IsPlain u) (s : JsString) :
    encodeText (a ++ s) = encodeText a ++ encodeText s := by
  rw [encodeText, scalars_append h, encodeUtf8, List.flatMap_append]
  rfl

theorem encodeText_ascii {s : JsString} (h : ∀ u ∈ s, u.toNat < 0x80) :
    encodeText s = s.map fun u => UInt8.ofNat u.toNat := by
  induction s with
  | nil => rfl
  | cons u s ih =>
    have hlt := h u List.mem_cons_self
    have hplain := isPlain_ascii hlt
    have hchar : String.utf8EncodeChar (Char.ofNat u.toNat) = [UInt8.ofNat u.toNat] := by
      have hall : ∀ k : Fin 0x80, String.utf8EncodeChar (Char.ofNat k.val) = [UInt8.ofNat k.val] := by
        decide
      exact hall ⟨u.toNat, hlt⟩
    rw [encodeText, scalars_unit u s hplain.1 hplain.2, encodeUtf8, List.flatMap_cons, hchar,
      List.map_cons, ← ih fun v hv => h v (List.mem_cons_of_mem _ hv)]
    rfl

theorem encodeText_ascii_inj {s t : JsString} (hs : ∀ u ∈ s, u.toNat < 0x80)
    (ht : ∀ u ∈ t, u.toNat < 0x80) (h : encodeText s = encodeText t) : s = t :=
  scalars_plain_inj (fun u hu => isPlain_ascii (hs u hu)) (fun u hu => isPlain_ascii (ht u hu))
    (encodeText_inj.mp h)

theorem not_mem_encodeText {s : JsString} (hs : ∀ u ∈ s, u.toNat < 0x80) {v : UInt16}
    (hv : v.toNat < 0x80) (h : v ∉ s) : UInt8.ofNat v.toNat ∉ encodeText s := by
  rw [encodeText_ascii hs]
  intro hmem
  obtain ⟨u, hu, heq⟩ := List.mem_map.mp hmem
  have hlt := hs u hu
  have htoNat := congrArg UInt8.toNat heq
  rw [UInt8.toNat_ofNat_of_lt' (by show _ < 256; omega),
    UInt8.toNat_ofNat_of_lt' (by show _ < 256; omega)] at htoNat
  exact h (UInt16.toNat.inj htoNat ▸ hu)

/-! ## The forgiving decoder -/

def isAsciiWhitespace (u : UInt16) : Bool := u ∈ [0x09, 0x0A, 0x0C, 0x0D, 0x20]

def stripPadding (s : JsString) : JsString :=
  if [paddingUnit, paddingUnit] <:+ s then s.dropLast.dropLast
  else if [paddingUnit] <:+ s then s.dropLast
  else s

/-- `atob(s)`, as bytes. -/
def atob (s : JsString) : Option (List UInt8) :=
  let bare := s.filter fun u => !isAsciiWhitespace u
  let body := if bare.length % 4 = 0 then stripPadding bare else bare
  if body.length % 4 = 1 ∨ body.any fun u => (unitSextet u).isNone then none
  else some (bytesOfSextets (body.filterMap unitSextet))

def IsAlphabet (s : JsString) : Prop := ∀ u ∈ s, (unitSextet u).isSome = true

theorem unitSextet_ne_padding {u : UInt16} (h : (unitSextet u).isSome = true) :
    u ≠ paddingUnit ∧ isAsciiWhitespace u = false := by
  have hnone : ∀ v ∈ [paddingUnit, 0x09, 0x0A, 0x0C, 0x0D, 0x20], (unitSextet v).isSome = false := by
    decide
  have hmem : u ∉ [paddingUnit, 0x09, 0x0A, 0x0C, 0x0D, 0x20] := by
    intro hmem
    rw [hnone u hmem] at h
    exact Bool.false_ne_true h
  rw [List.mem_cons, not_or] at hmem
  exact ⟨hmem.1, decide_eq_false hmem.2⟩

theorem atob_alphabet {s : JsString} (h : IsAlphabet s) (hlength : s.length % 4 ≠ 1) :
    atob s = some (bytesOfSextets (s.filterMap unitSextet)) := by
  have hbare : s.filter (fun u => !isAsciiWhitespace u) = s := by
    rw [List.filter_eq_self]
    intro u hu
    simp [(unitSextet_ne_padding (h u hu)).2]
  have hstrip : stripPadding s = s := by
    have hlast : ¬ [paddingUnit] <:+ s := by
      rintro ⟨front, rfl⟩
      exact (unitSextet_ne_padding (h paddingUnit (by simp))).1 rfl
    have htwo : ¬ [paddingUnit, paddingUnit] <:+ s := by
      rintro ⟨front, rfl⟩
      exact (unitSextet_ne_padding (h paddingUnit (by simp))).1 rfl
    rw [stripPadding, if_neg htwo, if_neg hlast]
  have hany : s.any (fun u => (unitSextet u).isNone) = false := by
    rw [List.any_eq_false]
    intro u hu
    rw [Option.isNone_iff_eq_none, ← Option.not_isSome_iff_eq_none, not_not]
    exact h u hu
  rw [atob, hbare, hstrip, ite_self, if_neg]
  simp [hlength, hany]

theorem length_bytesOfSextets (ns : List ℕ) :
    (bytesOfSextets ns).length = ns.length / 4 * 3 + (ns.length % 4 - 1) := by
  fun_induction bytesOfSextets ns with
  | case1 a b c d rest ih =>
    simp only [List.length_cons, ih]
    omega
  | case2 a b c => simp
  | case3 a b => simp
  | case4 ns hfour hthree htwo =>
    match ns with
    | [] => rfl
    | [a] => simp
    | [a, b] => exact absurd rfl (htwo a b)
    | [a, b, c] => exact absurd rfl (hthree a b c)
    | a :: b :: c :: d :: rest => exact absurd rfl (hfour a b c d rest)

theorem atob_length {s : JsString} (h : IsAlphabet s) (hlength : s.length % 4 = 0)
    {bytes : List UInt8} (hbytes : atob s = some bytes) : bytes.length = s.length / 4 * 3 := by
  have hall : (s.filterMap unitSextet).length = s.length := by
    rw [List.length_filterMap_eq_countP, List.countP_eq_length]
    exact h
  rw [atob_alphabet h (by omega), Option.some_inj] at hbytes
  rw [← hbytes, length_bytesOfSextets, hall]
  omega

/-! ## The alphabet for URLs -/

def fromUrlAlphabet (s : JsString) : JsString :=
  s.map fun u => if u = 0x2D then 0x2B else if u = 0x5F then 0x2F else u

def toUrlAlphabet (s : JsString) : JsString :=
  (s.map fun u => if u = 0x2B then 0x2D else if u = 0x2F then 0x5F else u).rdropWhile
    (· = paddingUnit)

/-- `btoa(…)` in the alphabet for URLs, without padding. -/
def base64Url (bytes : List UInt8) : JsString := toUrlAlphabet (encodeBase64 bytes)

/-- `[A-Za-z0-9_-]` -/
def isUrlUnit (u : UInt16) : Bool :=
  (unitSextet u).isSome && u ≠ 0x2B && u ≠ 0x2F || u = 0x2D || u = 0x5F

def urlSextetUnit (n : ℕ) : UInt16 :=
  if sextetUnit n = 0x2B then 0x2D else if sextetUnit n = 0x2F then 0x5F else sextetUnit n

theorem urlSextetUnit_facts {n : ℕ} (h : n < 64) :
    isUrlUnit (urlSextetUnit n) = true ∧ urlSextetUnit n ≠ paddingUnit ∧
      fromUrlAlphabet [urlSextetUnit n] = [sextetUnit n] := by
  have hall : ∀ k : Fin 64, isUrlUnit (urlSextetUnit k.val) = true ∧
      urlSextetUnit k.val ≠ paddingUnit ∧
      fromUrlAlphabet [urlSextetUnit k.val] = [sextetUnit k.val] := by
    decide
  exact hall ⟨n, h⟩

theorem base64Url_eq (bytes : List UInt8) : base64Url bytes = (sextets bytes).map urlSextetUnit := by
  have hpadding (k : ℕ) : ((List.replicate k paddingUnit).map fun u : UInt16 =>
      if u = 0x2B then 0x2D else if u = 0x2F then 0x5F else u) = List.replicate k paddingUnit := by
    rw [List.map_replicate]
    rfl
  have hdrop (s : JsString) (hs : ∀ u ∈ s, u ≠ paddingUnit) (k : ℕ) :
      (s ++ List.replicate k paddingUnit).rdropWhile (· = paddingUnit) = s := by
    induction k with
    | zero =>
      rw [List.replicate_zero, List.append_nil, List.rdropWhile_eq_self_iff]
      intro hne
      simpa using hs _ (List.getLast_mem hne)
    | succ k ih =>
      rw [List.replicate_succ', ← List.append_assoc, List.rdropWhile_concat_pos _ _ _ (by simp), ih]
  rw [base64Url, toUrlAlphabet, encodeBase64, List.map_append, hpadding, List.map_map]
  refine hdrop _ (fun u hu => ?_) _
  obtain ⟨n, hn, rfl⟩ := List.mem_map.mp hu
  exact (urlSextetUnit_facts (sextets_lt hn)).2.1

theorem isUrlUnit_base64Url {bytes : List UInt8} {u : UInt16} (h : u ∈ base64Url bytes) :
    isUrlUnit u = true := by
  rw [base64Url_eq] at h
  obtain ⟨n, hn, rfl⟩ := List.mem_map.mp h
  exact (urlSextetUnit_facts (sextets_lt hn)).1

theorem fromUrlAlphabet_base64Url (bytes : List UInt8) :
    fromUrlAlphabet (base64Url bytes) = (sextets bytes).map sextetUnit := by
  rw [base64Url_eq, fromUrlAlphabet, List.map_map]
  refine List.map_congr_left fun n hn => ?_
  exact (List.cons.inj (urlSextetUnit_facts (sextets_lt hn)).2.2).1

theorem length_sextets_eq (bytes : List UInt8) :
    (sextets bytes).length = bytes.length / 3 * 4 + (if bytes.length % 3 = 0 then 0
      else bytes.length % 3 + 1) := by
  induction bytes using sextets.induct with
  | case1 => rfl
  | case2 a => simp [sextets]
  | case3 a b => simp [sextets]
  | case4 a b c bytes ih =>
    simp only [sextets, List.length_cons, ih]
    split_ifs <;> omega

theorem length_base64Url (bytes : List UInt8) :
    (base64Url bytes).length = bytes.length / 3 * 4 + (if bytes.length % 3 = 0 then 0
      else bytes.length % 3 + 1) := by
  rw [base64Url_eq, List.length_map, length_sextets_eq]

theorem atob_base64Url (bytes : List UInt8) :
    atob (fromUrlAlphabet (base64Url bytes)) = some bytes := by
  have hlt : ∀ n ∈ sextets bytes, n < 64 := fun n hn => sextets_lt hn
  have halphabet : IsAlphabet ((sextets bytes).map sextetUnit) := by
    intro u hu
    obtain ⟨n, hn, rfl⟩ := List.mem_map.mp hu
    rw [unitSextet_sextetUnit (hlt n hn)]
    rfl
  have hlength : ((sextets bytes).map sextetUnit).length % 4 ≠ 1 := by
    rw [List.length_map, length_sextets_eq]
    split_ifs <;> omega
  rw [fromUrlAlphabet_base64Url, atob_alphabet halphabet hlength, filterMap_sextetUnit hlt,
    bytesOfSextets_sextets]

/-! ## Comparison -/

/-- The comparison of two lists of numbers that looks at every position, with zeros behind the end of
the shorter one. -/
def sameEverywhere (a b : List ℕ) : Bool :=
  (List.range (max a.length b.length)).foldl
    (fun mismatch i => mismatch ||| (a.getD i 0 ^^^ b.getD i 0)) (a.length ^^^ b.length) = 0

theorem foldl_or_eq_zero {f : ℕ → ℕ} (is : List ℕ) (init : ℕ) :
    is.foldl (fun m i => m ||| f i) init = 0 ↔ init = 0 ∧ ∀ i ∈ is, f i = 0 := by
  induction is generalizing init with
  | nil => simp
  | cons i is ih =>
    rw [List.foldl_cons, ih, Nat.or_eq_zero_iff, List.forall_mem_cons, and_assoc]

theorem sameEverywhere_iff {a b : List ℕ} : sameEverywhere a b = true ↔ a = b := by
  rw [sameEverywhere, decide_eq_true_eq, foldl_or_eq_zero]
  constructor
  · rintro ⟨hlength, hall⟩
    have hlen : a.length = b.length := Nat.xor_eq_zero_iff.mp hlength
    refine List.ext_getElem hlen fun i ha hb => ?_
    have hi := hall i (List.mem_range.mpr (by omega))
    rw [Nat.xor_eq_zero_iff, List.getD_eq_getElem _ _ ha, List.getD_eq_getElem _ _ hb] at hi
    exact hi
  · rintro rfl
    exact ⟨Nat.xor_self _, fun i _ => Nat.xor_self _⟩

end Daloy.Unicode
