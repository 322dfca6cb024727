import Daloy.Waf.Variants

/-! # Which combinations the firewall sees

A payload is hidden by several transformations at once; what undoes them all is `normalize`. The
variants have each transformation of a value of the chain by itself, not two of them together.

* `variants_exact`: where no value of the chain has two of a block comment, a control character and
  a plus sign, every combination is seen, and, where there is nothing to decode or to fold, only
  there.
-/

namespace Daloy.Waf
set_option autoImplicit false

open Daloy.Unicode Daloy.SearchPatterns

/-- Which normalisations are applied. -/
structure Normalizations where
  fold : Bool
  strip : Bool
  control : Bool
  plus : Bool

def normalize (nfkc : Normalizer) (c : Normalizations) (b : JsString) : JsString :=
  let b := if c.fold then nfkc.fold b else b
  let b := if c.strip then stripBlockComments b else b
  let b := if c.control then controlToSpace b else b
  if c.plus then plusToSpace b else b

def SeenAs (nfkc : Normalizer) (value x : JsString) : Prop :=
  ∃ w ∈ inspectionVariants nfkc value, capFrom 0 w = capFrom 0 x

def Composes (nfkc : Normalizer) (value : JsString) : Prop :=
  ∀ k ≤ MAX_DECODE_PASSES, ∀ d, decodeTimes k value = some d →
    ∀ c, SeenAs nfkc value (normalize nfkc c d)

/-- No two of a block comment, a control character and a plus sign; inside a comment the others do
not count. -/
def Single (b : JsString) : Prop :=
  (stripBlockComments b ≠ b →
    (∀ u ∈ stripBlockComments b, isControl u = false) ∧ plusSign ∉ stripBlockComments b) ∧
  ((∃ u ∈ b, isControl u = true) → plusSign ∉ b)

def Bare (nfkc : Normalizer) (value : JsString) : Prop := ∀ b, InChain nfkc value b → b = value

/-! ## What is preserved -/

theorem not_any_isControl {b : JsString} (h : ∀ u ∈ b, isControl u = false) :
    ¬ b.any isControl = true := by
  rw [List.any_eq_true]
  rintro ⟨u, hu, hcontrol⟩
  rw [h u hu] at hcontrol
  cases hcontrol

theorem controlToSpace_clean (b : JsString) : ∀ u ∈ controlToSpace b, isControl u = false := by
  intro u hu
  obtain ⟨v, -, rfl⟩ := List.mem_map.mp hu
  split
  · decide
  · rename_i h
    exact Bool.eq_false_iff.mpr h

theorem plusSign_not_mem_plusToSpace (b : JsString) : plusSign ∉ plusToSpace b := by
  intro hu
  obtain ⟨v, -, hv⟩ := List.mem_map.mp hu
  split at hv
  · cases hv
  · rename_i h
    exact h hv

theorem mem_map_of_fixed {f : UInt16 → UInt16} {u : UInt16} {b : JsString} (hu : u ∈ b)
    (hf : f u = u) : u ∈ b.map f :=
  List.mem_map.mpr ⟨u, hu, hf⟩

theorem count_map_of_fixed {f : UInt16 → UInt16} {u : UInt16} (hf : ∀ v, f v = u ↔ v = u)
    (b : JsString) : (b.map f).count u = b.count u := by
  induction b with
  | nil => rfl
  | cons v b ih =>
    rw [List.map_cons, List.count_cons, List.count_cons, ih]
    congr 1
    simp only [beq_iff_eq, hf]

theorem count_plusToSpace (b : JsString) : (plusToSpace b).count asterisk = b.count asterisk := by
  refine count_map_of_fixed (fun v => ?_) b
  split
  · rename_i h
    subst h
    decide
  · exact Iff.rfl

theorem count_controlToSpace (b : JsString) :
    (controlToSpace b).count asterisk = b.count asterisk := by
  refine count_map_of_fixed (fun v => ?_) b
  split
  · rename_i h
    refine iff_of_false (by decide) ?_
    rintro rfl
    revert h
    decide
  · exact Iff.rfl

theorem count_capFrom {u : UInt16} (hu : isWordUnit u = false) (run : ℕ) (b : JsString) :
    (capFrom run b).count u = b.count u := by
  fun_induction capFrom run b with
  | case1 run => rfl
  | case2 run v rest hword hshort ih => rw [List.count_cons, List.count_cons, ih]
  | case3 run v rest hword hlong ih =>
    have hne : v ≠ u := by
      rintro rfl
      rw [hu] at hword
      cases hword
    rw [ih, List.count_cons_of_ne hne]
  | case4 run v rest hword ih => rw [List.count_cons, List.count_cons, ih]

theorem isWordUnit_of_isControl {u : UInt16} (h : isControl u = true) : isWordUnit u = false := by
  rw [Bool.eq_false_iff]
  intro hword
  simp only [isWordUnit, Bool.or_eq_true, Bool.and_eq_true, decide_eq_true_eq, beq_iff_eq,
    UInt16.ext_iff] at hword
  simp only [isControl, Bool.or_eq_true, Bool.and_eq_true, decide_eq_true_eq, beq_iff_eq] at h
  simp at hword
  omega

theorem cutAt_eq {x y : UInt16} {b front rest : JsString} (h : cutAt x y b = some (front, rest)) :
    b = front ++ x :: y :: rest := by
  fun_induction cutAt x y b generalizing front with
  | case1 u v rest' hcut =>
    obtain ⟨rfl, rfl⟩ := Prod.mk.inj (Option.some.inj h)
    rw [hcut.1, hcut.2]
    rfl
  | case2 u v rest' hcut ih =>
    obtain ⟨c, hc, heq⟩ := Option.map_eq_some_iff.mp h
    obtain ⟨rfl, rfl⟩ := Prod.mk.inj heq
    rw [ih hc]
    rfl
  | case3 => cases h

theorem stripFrom_spec (most : ℕ) (b : JsString) :
    (stripFrom most b = b ∨ (stripFrom most b).count asterisk < b.count asterisk) ∧
      ∀ u ∈ stripFrom most b, u ∈ b ∨ u = space := by
  induction most generalizing b with
  | zero => exact ⟨.inl rfl, fun u hu => .inl hu⟩
  | succ most ih =>
    rw [stripFrom]
    cases hopen : cutAt slash asterisk b with
    | none => exact ⟨.inl rfl, fun u hu => .inl hu⟩
    | some c =>
      obtain ⟨front, inner⟩ := c
      cases hclose : cutAt asterisk slash inner with
      | none =>
        dsimp only
        rw [hclose]
        exact ⟨.inl rfl, fun u hu => .inl hu⟩
      | some c =>
        obtain ⟨comment, rest⟩ := c
        have hb := cutAt_eq hopen
        rw [cutAt_eq hclose] at hb
        obtain ⟨hcount, hmem⟩ := ih rest
        dsimp only
        rw [hclose]
        refine ⟨.inr ?_, fun u hu => ?_⟩
        · have hle : (stripFrom most rest).count asterisk ≤ rest.count asterisk := by
            obtain heq | hlt := hcount
            · rw [heq]
            · exact hlt.le
          have hspace : (space == asterisk) = false := by decide
          have hstar : (asterisk == asterisk) = true := by decide
          have hslash : (slash == asterisk) = false := by decide
          rw [hb]
          simp only [List.count_append, List.count_cons, hspace, hstar, hslash, if_true,
            Bool.false_eq_true, if_false]
          omega
        · rw [List.mem_append, List.mem_cons] at hu
          rw [hb]
          obtain hu | rfl | hu := hu
          · exact .inl (List.mem_append_left _ hu)
          · exact .inr rfl
          · obtain hrest | rfl := hmem u hu
            · refine .inl ?_
              simp only [List.mem_append, List.mem_cons]
              tauto
            · exact .inr rfl

theorem count_stripBlockComments {b : JsString} (h : stripBlockComments b ≠ b) :
    (stripBlockComments b).count asterisk < b.count asterisk :=
  (stripFrom_spec b.length b).1.resolve_left h

theorem mem_of_mem_stripBlockComments {b : JsString} {u : UInt16} (hu : u ∈ stripBlockComments b)
    (hspace : u ≠ space) : u ∈ b :=
  ((stripFrom_spec b.length b).2 u hu).resolve_right hspace

/-! ## Every combination is seen -/

theorem formOf_of_single {b : JsString} (h : Single b) (strip control plus : Bool) :
    FormOf b
      (let b := if strip then stripBlockComments b else b
       let b := if control then controlToSpace b else b
       if plus then plusToSpace b else b) := by
  obtain ⟨hcomment, hcontrol⟩ := h
  have hclean : ∀ x : JsString, (∀ u ∈ x, isControl u = false) →
      (if control then controlToSpace x else x) = x := by
    intro x hx
    split
    · exact controlToSpace_of_none (not_any_isControl hx)
    · rfl
  have hnoplus : ∀ x : JsString, plusSign ∉ x → (if plus then plusToSpace x else x) = x := by
    intro x hx
    split
    · exact plusToSpace_of_not_mem hx
    · rfl
  by_cases hstrip : strip = true ∧ stripBlockComments b ≠ b
  · obtain ⟨rfl, hne⟩ := hstrip
    obtain ⟨hnone, hsign⟩ := hcomment hne
    dsimp only
    rw [if_pos rfl, hclean _ hnone, hnoplus _ hsign]
    exact .inr (.inr (.inl rfl))
  · have hsame : (if strip then stripBlockComments b else b) = b := by
      split
      · by_contra hne
        exact hstrip ⟨‹_›, hne⟩
      · rfl
    dsimp only
    rw [hsame]
    by_cases hany : ∃ u ∈ b, isControl u = true
    · have hsign := hcontrol hany
      have hstill : plusSign ∉ controlToSpace b := by
        intro hmem
        obtain ⟨v, hv, heq⟩ := List.mem_map.mp hmem
        split at heq
        · cases heq
        · rw [heq] at hv
          exact hsign hv
      cases control with
      | true =>
        rw [if_pos rfl, hnoplus _ hstill]
        exact .inr (.inr (.inr rfl))
      | false =>
        rw [if_neg Bool.false_ne_true, hnoplus _ hsign]
        exact .inl rfl
    · have hnone : ∀ u ∈ b, isControl u = false := by
        intro u hu
        by_contra hcontrol
        exact hany ⟨u, hu, by simpa using hcontrol⟩
      rw [hclean _ hnone]
      split
      · exact .inr (.inl rfl)
      · exact .inl rfl

theorem composes_of_single (nfkc : Normalizer) {value : JsString}
    (h : ∀ b, InChain nfkc value b → Single b) : Composes nfkc value := by
  intro k hk d hd c
  refine ⟨normalize nfkc c d, (mem_inspectionVariants nfkc value _).mpr (.inl ?_), rfl⟩
  have hchain : InChain nfkc value (if c.fold then nfkc.fold d else d) := by
    refine ⟨k, hk, d, hd, ?_⟩
    split
    · exact .inr rfl
    · exact .inl rfl
  exact ⟨_, hchain, formOf_of_single (h _ hchain) c.strip c.control c.plus⟩

/-! ## Two of them are not -/

theorem seenAs_spec {nfkc : Normalizer} {value x : JsString} (hbare : Bare nfkc value)
    (h : SeenAs nfkc value x) :
    ∃ y, FormOf value y ∧ ∀ u, isWordUnit u = false → y.count u = x.count u := by
  obtain ⟨w, hw, hcap⟩ := h
  have hcount : ∀ u, isWordUnit u = false → w.count u = x.count u := by
    intro u hu
    rw [← count_capFrom hu 0 w, hcap, count_capFrom hu]
  have hform : ∀ y, Expanded nfkc value y → FormOf value y := by
    rintro y ⟨b, hb, hy⟩
    rwa [hbare b hb] at hy
  obtain hw | ⟨y, hy, -, -, hshort⟩ := (mem_inspectionVariants nfkc value w).mp hw
  · exact ⟨w, hform w hw, hcount⟩
  · refine ⟨y, hform y hy, fun u hu => ?_⟩
    rw [← hcount u hu]
    rw [capWordRuns] at hshort
    split at hshort
    · cases hshort
    · rw [← Option.some.inj hshort, count_capFrom hu]

theorem single_of_composes {nfkc : Normalizer} {value : JsString} (hbare : Bare nfkc value)
    (h : Composes nfkc value) : Single value := by
  have hseen : ∀ strip control plus : Bool, ∃ y, FormOf value y ∧ ∀ u, isWordUnit u = false →
      y.count u = (normalize nfkc ⟨false, strip, control, plus⟩ value).count u :=
    fun strip control plus =>
      seenAs_spec hbare (h 0 (Nat.zero_le _) value rfl ⟨false, strip, control, plus⟩)
  have hstar : isWordUnit asterisk = false := by decide
  have hsign : isWordUnit plusSign = false := by decide
  have hcontrolPlus : isControl plusSign = false := by decide
  -- A control character is no plus sign, and no space.
  have hplain : ∀ u, isControl u = true → u ≠ plusSign ∧ u ≠ space := by
    intro u hu
    constructor <;> rintro rfl <;> revert hu <;> decide
  have hkeptByPlus : ∀ u, isControl u = true → (if u = plusSign then space else u) = u :=
    fun u hu => if_neg (hplain u hu).1
  have hkeptByControl : (if isControl plusSign then space else plusSign) = plusSign :=
    if_neg (by rw [hcontrolPlus]; exact Bool.false_ne_true)
  have habsent : ∀ {y x : JsString} {u : UInt16}, y.count u = x.count u → u ∉ x → u ∉ y := by
    intro y x u hcount hu
    rw [← List.count_eq_zero] at hu ⊢
    rw [hcount, hu]
  refine ⟨fun hne => ⟨fun u hu => ?_, fun hplus => ?_⟩, ?_⟩
  · have hless := count_stripBlockComments hne
    rw [Bool.eq_false_iff]
    intro hcontrol
    have hvalue := mem_of_mem_stripBlockComments hu (hplain u hcontrol).2
    obtain ⟨y, hform, hcount⟩ := hseen true true false
    have hclean : u ∉ controlToSpace (stripBlockComments value) := by
      intro hmem
      rw [controlToSpace_clean _ u hmem] at hcontrol
      cases hcontrol
    have hnone := habsent (hcount u (isWordUnit_of_isControl hcontrol)) hclean
    obtain rfl | rfl | rfl | rfl := hform
    · exact hnone hvalue
    · exact hnone (mem_map_of_fixed hvalue (hkeptByPlus u hcontrol))
    · exact hnone hu
    · have hsame := hcount asterisk hstar
      have hforms : (normalize nfkc ⟨false, true, true, false⟩ value).count asterisk =
          (stripBlockComments value).count asterisk := count_controlToSpace _
      rw [count_controlToSpace, hforms] at hsame
      omega
  · have hless := count_stripBlockComments hne
    have hvalue := mem_of_mem_stripBlockComments hplus (by decide)
    obtain ⟨y, hform, hcount⟩ := hseen true false true
    have hnone := habsent (hcount plusSign hsign) (plusSign_not_mem_plusToSpace _)
    obtain rfl | rfl | rfl | rfl := hform
    · exact hnone hvalue
    · have hsame := hcount asterisk hstar
      have hforms : (normalize nfkc ⟨false, true, false, true⟩ value).count asterisk =
          (stripBlockComments value).count asterisk := count_plusToSpace _
      rw [count_plusToSpace, hforms] at hsame
      omega
    · exact hnone hplus
    · exact hnone (mem_map_of_fixed hvalue hkeptByControl)
  · rintro ⟨u, hu, hcontrol⟩ hplus
    obtain ⟨y, hform, hcount⟩ := hseen false true true
    have hnosign := habsent (hcount plusSign hsign) (plusSign_not_mem_plusToSpace _)
    have hclean : u ∉ plusToSpace (controlToSpace value) := by
      intro hmem
      obtain ⟨v, hv, heq⟩ := List.mem_map.mp hmem
      split at heq
      · exact (hplain u hcontrol).2 heq.symm
      · rw [heq] at hv
        rw [controlToSpace_clean _ u hv] at hcontrol
        cases hcontrol
    have hnone := habsent (hcount u (isWordUnit_of_isControl hcontrol)) hclean
    obtain rfl | rfl | rfl | rfl := hform
    · exact hnone hu
    · exact hnone (mem_map_of_fixed hu (hkeptByPlus u hcontrol))
    · have hsame := hcount asterisk hstar
      have hforms : (normalize nfkc ⟨false, false, true, true⟩ value).count asterisk =
          value.count asterisk := (count_plusToSpace _).trans (count_controlToSpace _)
      rw [hforms] at hsame
      by_cases hne : stripBlockComments value = value
      · rw [hne] at hnone
        exact hnone hu
      · have hless := count_stripBlockComments hne
        omega
    · exact hnosign (mem_map_of_fixed hplus hkeptByControl)

/-- **When combinations are seen.** There are at most forty-eight variants. Where every value of
the chain has one of a block comment, a control character and a plus sign at most, every combination
is among them; where there is nothing to decode or to fold, only there. -/
theorem variants_exact (nfkc : Normalizer) (value : JsString) :
    (inspectionVariants nfkc value).length ≤ 48 ∧
      ((∀ b, InChain nfkc value b → Single b) → Composes nfkc value) ∧
        (Bare nfkc value → (Composes nfkc value ↔ Single value)) := by
  refine ⟨length_inspectionVariants_le nfkc value, composes_of_single nfkc, fun hbare => ?_⟩
  constructor
  · exact single_of_composes hbare
  · intro hsingle
    refine composes_of_single nfkc fun b hb => ?_
    rwa [hbare b hb]

/-! ## A payload that is not seen -/

theorem variants_exact_comment : Composes asciiNormalizer (js "1'/**/OR a=a") := by
  refine (variants_exact asciiNormalizer (js "1'/**/OR a=a")).2.1 ?_
  rintro b ⟨k, hk, d, hd, hb⟩
  have hplain : percentSign ∉ js "1'/**/OR a=a" := by decide
  have hfixed : safeDecode (js "1'/**/OR a=a") = js "1'/**/OR a=a" := by
    rw [safeDecode, decodeURIComponent_of_not_mem hplain]
    rfl
  have hvalue : b = js "1'/**/OR a=a" := by
    rw [← decodeTimes_of_fixed hfixed hd]
    obtain rfl | rfl := hb <;> rfl
  subst hvalue
  refine ⟨fun _ => ⟨by decide, by decide⟩, fun _ => by decide⟩

/-- A tautology with a comment in front of its operator and a control character behind it. -/
def splitTautology : JsString := js "1'/**/OR%00a=a"

/-- The comment and the control character are each replaced, but not both: what would be found is
never looked at. -/
theorem tautology_hidden :
    ¬ Composes asciiNormalizer splitTautology ∧
      (∃ d, decodeTimes 1 splitTautology = some d ∧ (SIGNATURES .sqli).any
        (·.test (normalize asciiNormalizer ⟨false, true, true, false⟩ d)) = true) ∧
      ∀ w ∈ inspectionVariants asciiNormalizer splitTautology, ∀ r ∈ ALL_RULE_IDS,
        (SIGNATURES r).any (·.test w) = false := by
  have hdecoded : decodeTimes 1 splitTautology = some (js "1'/**/OR\x00a=a") := by decide +kernel
  refine ⟨fun h => ?_, ⟨_, hdecoded, by decide +kernel⟩, by decide +kernel⟩
  obtain ⟨w, hw, hcap⟩ := h 1 (by decide) _ hdecoded ⟨false, true, true, false⟩
  revert w
  decide +kernel

end Daloy.Waf
