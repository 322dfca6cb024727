import Daloy.Foundations.JsMap
import Daloy.Waf.Variants
import Mathlib.Data.List.Perm.Subperm

/-! # Scanning a value

The rules that are enabled, and what is recorded of a value: whole when it is short, else in windows
that overlap, and once more with its white space collapsed. Scanning stops when every rule has fired.

* `resolveRules_sound`: the rules are distinct and have their own signatures.
* `scanWindows_covers`: windows lose no match of a text without runs of white space.
* `scanValueVariants_covers`: a signature that is found in a variant leaves its rule recorded.
-/

namespace Daloy.Waf
set_option autoImplicit false

open Daloy.Unicode Daloy.SearchPatterns

section
variable {ν : Type}

/-! ## Rules -/

structure WafRuleConfig (ν : Type) where
  enabled : Option Bool
  score : Option ν

/-- `boolean | WafRuleConfig`. -/
inductive RuleOverride (ν : Type)
  | flag (b : Bool)
  | config (c : WafRuleConfig ν)

structure ResolvedRule (ν : Type) where
  ruleId : WafRuleId
  score : ν
  signatures : List Pattern

/-- What an override makes of a rule: whether it is enabled and what it scores. `none` is the
`TypeError` of a score that is not positive. -/
def resolveOverride (isPositive : ν → Bool) (defaultScore : ν) :
    Option (RuleOverride ν) → Option (Bool × ν)
  | some (.flag false) => some (false, defaultScore)
  | some (.flag true) => some (true, defaultScore)
  | none => some (true, defaultScore)
  | some (.config c) =>
    match c.score with
    | some score => if isPositive score then some (c.enabled.getD true, score) else none
    | none => some (c.enabled.getD true, defaultScore)

def resolveFrom (isPositive : ν → Bool) (defaultScore : ν)
    (overrides : WafRuleId → Option (RuleOverride ν)) :
    List WafRuleId → Option (List (ResolvedRule ν))
  | [] => some []
  | ruleId :: rest =>
    match resolveOverride isPositive defaultScore (overrides ruleId) with
    | none => none
    | some (enabled, score) =>
      (resolveFrom isPositive defaultScore overrides rest).map fun resolved =>
        if enabled then ⟨ruleId, score, SIGNATURES ruleId⟩ :: resolved else resolved

def resolveRules (isPositive : ν → Bool) (defaultScore : ν)
    (overrides : WafRuleId → Option (RuleOverride ν)) : Option (List (ResolvedRule ν)) :=
  resolveFrom isPositive defaultScore overrides ALL_RULE_IDS

/-- Distinct rules with their own signatures. -/
structure RulesSound (rules : List (ResolvedRule ν)) : Prop where
  distinct : (rules.map ResolvedRule.ruleId).Nodup
  own : ∀ rule ∈ rules, rule.signatures = SIGNATURES rule.ruleId

theorem resolveRules_sound {isPositive : ν → Bool} {defaultScore : ν}
    {overrides : WafRuleId → Option (RuleOverride ν)} {rules : List (ResolvedRule ν)}
    (h : resolveRules isPositive defaultScore overrides = some rules) : RulesSound rules := by
  have hfrom : ∀ (ids : List WafRuleId) (rules : List (ResolvedRule ν)),
      resolveFrom isPositive defaultScore overrides ids = some rules →
        (rules.map ResolvedRule.ruleId).Sublist ids ∧
          ∀ rule ∈ rules, rule.signatures = SIGNATURES rule.ruleId := by
    intro ids
    induction ids with
    | nil =>
      intro rules h
      obtain rfl := Option.some.inj h
      exact ⟨List.Sublist.slnil, by simp⟩
    | cons ruleId ids ih =>
      intro rules h
      rw [resolveFrom] at h
      split at h
      · cases h
      · rename_i enabled score _
        obtain ⟨rest, hrest, rfl⟩ := Option.map_eq_some_iff.mp h
        obtain ⟨hsub, hown⟩ := ih rest hrest
        cases enabled with
        | true =>
          rw [if_pos rfl, List.map_cons, List.forall_mem_cons]
          exact ⟨hsub.cons_cons ruleId, rfl, hown⟩
        | false => exact ⟨hsub.cons ruleId, hown⟩
  obtain ⟨hsub, hown⟩ := hfrom ALL_RULE_IDS rules h
  exact ⟨hsub.nodup (by decide), hown⟩

/-! ## What is recorded -/

inductive WafInspectionLocation
  | path
  | query
  | header
  | body

/-- A rule, or the anomaly of a body that is too large. -/
inductive MatchId
  | rule (ruleId : WafRuleId)
  | limits

structure WafMatch (ν : Type) where
  ruleId : MatchId
  score : ν
  location : WafInspectionLocation
  sample : JsString

abbrev Scored (ν : Type) := JsMap WafRuleId (WafMatch ν)

def sample (value : JsString) : JsString :=
  let trimmed := if 120 < value.length then value.take 117 ++ js "..." else value
  trimmed.map fun u => if u.toNat ≤ 0x1f ∨ u.toNat = 0x7f then space else u

def scanRule (value : JsString) (location : WafInspectionLocation) (scored : Scored ν)
    (rule : ResolvedRule ν) : Scored ν :=
  if (scored.get? rule.ruleId).isSome then scored
  else if rule.signatures.any (·.test value) then
    scored.set rule.ruleId ⟨.rule rule.ruleId, rule.score, location, sample value⟩
  else scored

def scanValue (rules : List (ResolvedRule ν)) (value : JsString) (location : WafInspectionLocation)
    (scored : Scored ν) : Scored ν :=
  rules.foldl (scanRule value location) scored

/-- The windows from `start` on; one for each unit of the value is more than there are. -/
def scanWindowsFrom (rules : List (ResolvedRule ν)) (maxValueLength : ℕ) (value : JsString)
    (location : WafInspectionLocation) : ℕ → ℕ → Scored ν → Scored ν
  | 0, _, scored => scored
  | windows + 1, start, scored =>
    let overlap := min WINDOW_OVERLAP (maxValueLength / 2)
    let stride := maxValueLength - overlap
    let scored := scanValue rules ((value.drop start).take maxValueLength) location scored
    if scored.size = rules.length ∨ value.length ≤ start + maxValueLength then scored
    else scanWindowsFrom rules maxValueLength value location windows (start + stride) scored

def scanWindows (rules : List (ResolvedRule ν)) (maxValueLength : ℕ) (value : JsString)
    (location : WafInspectionLocation) (scored : Scored ν) : Scored ν :=
  scanWindowsFrom rules maxValueLength value location (value.length + 1) 0 scored

def scanVariant (rules : List (ResolvedRule ν)) (maxValueLength : ℕ) (variant : JsString)
    (location : WafInspectionLocation) (scored : Scored ν) : Scored ν :=
  if variant.length ≤ maxValueLength then scanValue rules variant location scored
  else
    let scored := scanWindows rules maxValueLength variant location scored
    if scored.size = rules.length then scored
    else if hasRun variant then
      if (collapse variant).length ≤ maxValueLength then
        scanValue rules (collapse variant) location scored
      else scanWindows rules maxValueLength (collapse variant) location scored
    else scored

def scanEach (rules : List (ResolvedRule ν)) (maxValueLength : ℕ)
    (location : WafInspectionLocation) : List JsString → Scored ν → Scored ν
  | [], scored => scored
  | variant :: rest, scored =>
    let scored := scanVariant rules maxValueLength variant location scored
    if scored.size = rules.length then scored
    else scanEach rules maxValueLength location rest scored

def scanValueVariants (nfkc : Normalizer) (rules : List (ResolvedRule ν)) (maxValueLength : ℕ)
    (value : JsString) (location : WafInspectionLocation) (scored : Scored ν) : Scored ν :=
  scanEach rules maxValueLength location (inspectionVariants nfkc value) scored

/-! ## What scanning leaves behind -/

def Recorded (scored : Scored ν) (ruleId : WafRuleId) : Prop := (scored.get? ruleId).isSome = true

def Within (rules : List (ResolvedRule ν)) (scored : Scored ν) : Prop :=
  ∀ ruleId, Recorded scored ruleId → ruleId ∈ rules.map ResolvedRule.ruleId

/-- From one state to another: nothing that is recorded is lost, only enabled rules are recorded, and
so is every rule that should fire. -/
structure Covers (rules : List (ResolvedRule ν)) (scored scored' : Scored ν)
    (fires : ResolvedRule ν → Prop) : Prop where
  within : Within rules scored → Within rules scored'
  keeps : ∀ ruleId, Recorded scored ruleId → Recorded scored' ruleId
  finds : Within rules scored → ∀ rule ∈ rules, fires rule → Recorded scored' rule.ruleId

theorem Covers.refl (rules : List (ResolvedRule ν)) (scored : Scored ν) :
    Covers rules scored scored fun _ => False :=
  ⟨id, fun _ h => h, fun _ _ _ h => h.elim⟩

theorem Covers.mono {rules : List (ResolvedRule ν)} {scored scored' : Scored ν}
    {fires fires' : ResolvedRule ν → Prop} (h : Covers rules scored scored' fires)
    (hmono : ∀ rule ∈ rules, fires' rule → fires rule) : Covers rules scored scored' fires' :=
  ⟨h.within, h.keeps, fun hwithin rule hrule hfires =>
    h.finds hwithin rule hrule (hmono rule hrule hfires)⟩

theorem Covers.trans {rules : List (ResolvedRule ν)} {scored scored' scored'' : Scored ν}
    {fires fires' : ResolvedRule ν → Prop} (h : Covers rules scored scored' fires)
    (h' : Covers rules scored' scored'' fires') :
    Covers rules scored scored'' fun rule => fires rule ∨ fires' rule := by
  refine ⟨fun hwithin => h'.within (h.within hwithin), fun id hid => h'.keeps id (h.keeps id hid),
    fun hwithin rule hrule hfires => ?_⟩
  obtain hfires | hfires := hfires
  · exact h'.keeps _ (h.finds hwithin rule hrule hfires)
  · exact h'.finds (h.within hwithin) rule hrule hfires

theorem recorded_iff {scored : Scored ν} {ruleId : WafRuleId} :
    Recorded scored ruleId ↔ ruleId ∈ scored.entries.map Prod.fst := by
  rw [Recorded, Option.isSome_iff_ne_none, ne_eq, JsMap.get?_eq_none, not_not]

theorem Covers.full {rules : List (ResolvedRule ν)} {scored scored' : Scored ν}
    {fires : ResolvedRule ν → Prop} (h : Covers rules scored scored' fires)
    (hsize : scored'.size = rules.length) : Covers rules scored scored' fun _ => True := by
  refine ⟨h.within, h.keeps, fun hwithin rule hrule _ => ?_⟩
  have hsub : scored'.entries.map Prod.fst ⊆ rules.map ResolvedRule.ruleId := by
    intro ruleId hmem
    exact h.within hwithin ruleId (recorded_iff.mpr hmem)
  have hlength : (rules.map ResolvedRule.ruleId).length ≤ (scored'.entries.map Prod.fst).length := by
    rw [List.length_map, List.length_map]
    exact hsize.symm.le
  have hperm := (List.subperm_of_subset scored'.nodup hsub).perm_of_length_le hlength
  exact recorded_iff.mpr (hperm.mem_iff.mpr (List.mem_map_of_mem hrule))

def FiresOn (value : JsString) (rule : ResolvedRule ν) : Prop :=
  ∃ p ∈ rule.signatures, p.test value = true

theorem scanRule_covers {rules : List (ResolvedRule ν)} {rule : ResolvedRule ν} (hrule : rule ∈ rules)
    (value : JsString) (location : WafInspectionLocation) (scored : Scored ν) :
    Covers rules scored (scanRule value location scored rule)
      fun other => other = rule ∧ FiresOn value other := by
  rw [scanRule]
  split
  · rename_i hhas
    refine ⟨id, fun _ h => h, ?_⟩
    rintro - _ - ⟨rfl, -⟩
    exact hhas
  · split
    · have hset : ∀ ruleId, Recorded (scored.set rule.ruleId
          ⟨.rule rule.ruleId, rule.score, location, sample value⟩) ruleId ↔
            ruleId = rule.ruleId ∨ Recorded scored ruleId := by
        intro ruleId
        rw [Recorded, Recorded, JsMap.get?_set]
        split
        · rename_i h
          simp [h]
        · rename_i h
          simp [h]
      refine ⟨fun hwithin ruleId h => ?_, fun ruleId h => (hset ruleId).mpr (.inr h), ?_⟩
      · obtain rfl | h := (hset ruleId).mp h
        · exact List.mem_map_of_mem hrule
        · exact hwithin ruleId h
      · rintro - _ - ⟨rfl, -⟩
        exact (hset _).mpr (.inl rfl)
    · rename_i hnone
      refine ⟨id, fun _ h => h, ?_⟩
      rintro - _ - ⟨rfl, p, hp, htest⟩
      exact absurd (List.any_eq_true.mpr ⟨p, hp, htest⟩) hnone

theorem scanValue_covers (rules : List (ResolvedRule ν)) (value : JsString)
    (location : WafInspectionLocation) (scored : Scored ν) :
    Covers rules scored (scanValue rules value location scored) (FiresOn value) := by
  have hloop : ∀ (some : List (ResolvedRule ν)) (scored : Scored ν), (∀ rule ∈ some, rule ∈ rules) →
      Covers rules scored (some.foldl (scanRule value location) scored)
        fun rule => rule ∈ some ∧ FiresOn value rule := by
    intro some
    induction some with
    | nil =>
      intro scored _
      exact (Covers.refl rules scored).mono (by simp)
    | cons rule some ih =>
      intro scored hall
      rw [List.forall_mem_cons] at hall
      refine ((scanRule_covers hall.1 value location scored).trans (ih _ hall.2)).mono ?_
      rintro other - ⟨hother, hfires⟩
      rw [List.mem_cons] at hother
      obtain rfl | hother := hother
      · exact .inl ⟨rfl, hfires⟩
      · exact .inr ⟨hother, hfires⟩
  exact (hloop rules scored fun _ h => h).mono fun rule hrule hfires => ⟨hrule, hfires⟩

theorem window_eq {front m post : JsString} {start width : ℕ} (hstart : start ≤ front.length)
    (hwidth : front.length + m.length ≤ start + width) :
    ∃ front' post', front' <:+ front ∧ post' <+: post ∧
      ((front ++ (m ++ post)).drop start).take width = front' ++ (m ++ post') := by
  refine ⟨front.drop start, post.take (width - (front.length - start) - m.length),
    List.drop_suffix _ _, List.take_prefix _ _, ?_⟩
  rw [List.drop_append_of_le_length hstart, List.take_append, List.take_append, List.length_drop,
    List.take_of_length_le (by rw [List.length_drop]; omega),
    List.take_of_length_le (l := m) (by omega)]

/-- A short match from `start` on, which every window that holds it finds. -/
def MatchFrom (value : JsString) (p : Pattern) (start : ℕ) : Prop :=
  ∃ front m post, value = front ++ (m ++ post) ∧ m.length ≤ WINDOW_OVERLAP ∧
    start ≤ front.length ∧ ∀ front' post', front' <:+ front → post' <+: post →
      p.test (front' ++ (m ++ post')) = true

theorem scanWindowsFrom_covers (rules : List (ResolvedRule ν)) {maxValueLength : ℕ}
    (hmax : 1024 ≤ maxValueLength) (value : JsString) (location : WafInspectionLocation)
    (windows start : ℕ) (scored : Scored ν) (hwindows : value.length < start + windows) :
    Covers rules scored (scanWindowsFrom rules maxValueLength value location windows start scored)
      fun rule => ∃ p ∈ rule.signatures, MatchFrom value p start := by
  induction windows generalizing start scored with
  | zero =>
    refine (Covers.refl rules scored).mono ?_
    rintro rule - ⟨p, -, front, m, post, rfl, -, hstart, -⟩
    rw [List.length_append] at hwindows
    omega
  | succ windows ih =>
    have hoverlap : min WINDOW_OVERLAP (maxValueLength / 2) = WINDOW_OVERLAP := by
      rw [WINDOW_OVERLAP]
      omega
    have hstride : maxValueLength - WINDOW_OVERLAP + WINDOW_OVERLAP = maxValueLength := by
      rw [WINDOW_OVERLAP]
      omega
    rw [scanWindowsFrom, hoverlap]
    have hwindow := scanValue_covers rules ((value.drop start).take maxValueLength) location scored
    have hholds : ∀ rule : ResolvedRule ν, ∀ p ∈ rule.signatures, ∀ front m post,
        value = front ++ (m ++ post) → start ≤ front.length →
          front.length + m.length ≤ start + maxValueLength →
            (∀ front' post', front' <:+ front → post' <+: post →
              p.test (front' ++ (m ++ post')) = true) →
              FiresOn ((value.drop start).take maxValueLength) rule := by
      intro rule p hp front m post hvalue hstart hend htest
      obtain ⟨front', post', hfront, hpost, heq⟩ := window_eq hstart hend
      rw [hvalue, heq]
      exact ⟨p, hp, htest front' post' hfront hpost⟩
    split
    · rename_i hstop
      obtain hfull | hlast := hstop
      · exact (hwindow.full hfull).mono fun _ _ _ => trivial
      · refine hwindow.mono ?_
        rintro rule - ⟨p, hp, front, m, post, hvalue, -, hstart, htest⟩
        refine hholds rule p hp front m post hvalue hstart ?_ htest
        rw [hvalue, List.length_append, List.length_append] at hlast
        omega
    · rename_i hmore
      rw [not_or] at hmore
      refine (hwindow.trans (ih (start + (maxValueLength - WINDOW_OVERLAP)) _ (by
        rw [WINDOW_OVERLAP] at hstride ⊢
        omega))).mono ?_
      rintro rule - ⟨p, hp, front, m, post, hvalue, hm, hstart, htest⟩
      by_cases hend : front.length + m.length ≤ start + maxValueLength
      · exact .inl (hholds rule p hp front m post hvalue hstart hend htest)
      · exact .inr ⟨p, hp, front, m, post, hvalue, hm, by omega, htest⟩

theorem scanWindows_covers {rules : List (ResolvedRule ν)} (hrules : RulesSound rules)
    {maxValueLength : ℕ} (hmax : 1024 ≤ maxValueLength) {value : JsString}
    (hrun : hasRun value = false) (location : WafInspectionLocation) (scored : Scored ν) :
    Covers rules scored (scanWindows rules maxValueLength value location scored)
      (FiresOn value) := by
  refine (scanWindowsFrom_covers rules hmax value location (value.length + 1) 0 scored
    (by omega)).mono ?_
  rintro rule hrule ⟨p, hp, htest⟩
  have hsignature := hp
  rw [hrules.own rule hrule] at hsignature
  obtain ⟨front, m, post, hvalue, hm, hshort⟩ :=
    exists_short_match (signatures_windowed rule.ruleId p hsignature) hrun htest
  exact ⟨p, hp, front, m, post, hvalue, hm, Nat.zero_le _, hshort⟩

theorem firesOn_collapse {rules : List (ResolvedRule ν)} (hrules : RulesSound rules)
    {rule : ResolvedRule ν} (hrule : rule ∈ rules) {value : JsString} (h : FiresOn value rule) :
    FiresOn (collapse value) rule := by
  obtain ⟨p, hp, htest⟩ := h
  have hsignature := hp
  rw [hrules.own rule hrule] at hsignature
  have hwindowed := signatures_windowed rule.ruleId p hsignature
  rw [Pattern.windowed, Bool.and_eq_true, Bool.and_eq_true, Bool.and_eq_true] at hwindowed
  exact ⟨p, hp, test_collapse hwindowed.1.1.1 htest⟩

theorem scanWindows_keeps (rules : List (ResolvedRule ν)) {maxValueLength : ℕ}
    (hmax : 1024 ≤ maxValueLength) (value : JsString) (location : WafInspectionLocation)
    (scored : Scored ν) :
    Covers rules scored (scanWindows rules maxValueLength value location scored)
      fun _ => False :=
  (scanWindowsFrom_covers rules hmax value location (value.length + 1) 0 scored
    (by omega)).mono (fun _ _ h => h.elim)

theorem scanVariant_covers {rules : List (ResolvedRule ν)} (hrules : RulesSound rules)
    {maxValueLength : ℕ} (hmax : 1024 ≤ maxValueLength) (variant : JsString)
    (location : WafInspectionLocation) (scored : Scored ν) :
    Covers rules scored (scanVariant rules maxValueLength variant location scored)
      (FiresOn variant) := by
  rw [scanVariant]
  split
  · exact scanValue_covers rules variant location scored
  · dsimp only
    have hwindows := scanWindows_keeps rules hmax variant location scored
    split
    · rename_i hfull
      exact (hwindows.full hfull).mono fun _ _ _ => trivial
    · split
      · have hcollapsed : ∀ rule ∈ rules, FiresOn variant rule →
            False ∨ FiresOn (collapse variant) rule :=
          fun rule hrule h => .inr (firesOn_collapse hrules hrule h)
        split
        · exact (hwindows.trans (scanValue_covers rules _ location _)).mono hcollapsed
        · exact (hwindows.trans
            (scanWindows_covers hrules hmax (hasRun_collapse variant) location _)).mono hcollapsed
      · rename_i hrun
        exact scanWindows_covers hrules hmax (Bool.eq_false_iff.mpr hrun) location scored

theorem scanValueVariants_covers (nfkc : Normalizer) {rules : List (ResolvedRule ν)}
    (hrules : RulesSound rules) {maxValueLength : ℕ} (hmax : 1024 ≤ maxValueLength)
    (value : JsString) (location : WafInspectionLocation) (scored : Scored ν) :
    Covers rules scored (scanValueVariants nfkc rules maxValueLength value location scored)
      fun rule => ∃ variant ∈ inspectionVariants nfkc value, FiresOn variant rule := by
  rw [scanValueVariants]
  generalize inspectionVariants nfkc value = variants
  induction variants generalizing scored with
  | nil =>
    refine (Covers.refl rules scored).mono ?_
    rintro rule - ⟨variant, hvariant, -⟩
    cases hvariant
  | cons variant rest ih =>
    rw [scanEach]
    have hone := scanVariant_covers hrules hmax variant location scored
    split
    · rename_i hfull
      exact (hone.full hfull).mono fun _ _ _ => trivial
    · refine (hone.trans (ih _)).mono ?_
      rintro rule - ⟨v, hv, hfires⟩
      rw [List.mem_cons] at hv
      obtain rfl | hv := hv
      · exact .inl hfires
      · exact .inr ⟨v, hv, hfires⟩

end

end Daloy.Waf
