import Daloy.Foundations.Fallible
import Daloy.Foundations.Text
import Daloy.Jobs.Queue
import Mathlib.Data.List.Infix

/-! # Composed idempotency keys

`jobIdempotencyKey`: a tenant or none, the name of a job and a key of the caller, which may itself
hold slashes. The other segments hold none, and the first unit tells the two forms apart.

* `jobIdempotencyKey_eq_ok`: which parts are accepted.
-/

namespace Daloy.Jobs
set_option autoImplicit false

open Daloy.Unicode Daloy.Json Daloy.Text Daloy.Fallible

/-! ## The source -/

structure JobKeyParts where
  tenant : Option JsString
  name : JsString
  key : JsString
  deriving DecidableEq

/-- `[\x21-\x7e]`. -/
def isPrintable (u : UInt16) : Bool := 0x21 ≤ u.toNat && u.toNat ≤ 0x7e

def slash : UInt16 := 0x2F

def assertKeySegment (key : JsString) : Except JobError Unit :=
  if key.isEmpty then
    .error (.config .invalidOption (js "jobIdempotencyKey(): key must be a non-empty string."))
  else if !key.all isPrintable then
    .error (.config .invalidOption (js ("jobIdempotencyKey(): key must be printable ASCII " ++
      "(no whitespace or control characters).")))
  else if js ".." <:+: key then
    .error (.config .invalidOption (js "jobIdempotencyKey(): key must not contain \"..\"."))
  else .ok ()

def scopeOf (tenant : Option JsString) : Except JobError JsString :=
  match tenant with
  | none => .ok (js "g")
  | some tenant => do
    let checked ← assertTenant tenant
    return js "t" ++ slash :: checked

def jobIdempotencyKey (parts : JobKeyParts) : Except JobError JsString := do
  let name ← assertJobName parts.name
  assertKeySegment parts.key
  let scope ← scopeOf parts.tenant
  let out := scope ++ slash :: (name ++ slash :: parts.key)
  if out.length > 255 then
    .error (.config .invalidOption (js ("jobIdempotencyKey(): composed key is " ++
      toString out.length ++ " chars; the limit is 255.")))
  else .ok out

/-! ## What is accepted -/

def scopeText : Option JsString → JsString
  | none => js "g"
  | some tenant => js "t" ++ slash :: tenant

structure Accepted (parts : JobKeyParts) : Prop where
  name : isJobName parts.name = true
  nonempty : parts.key ≠ []
  printable : ∀ u ∈ parts.key, isPrintable u = true
  dots : ¬ js ".." <:+: parts.key
  tenant : ∀ tenant, parts.tenant = some tenant → isTenant tenant = true

theorem assertKeySegment_eq_ok {key : JsString} :
    assertKeySegment key = .ok () ↔
      key ≠ [] ∧ (∀ u ∈ key, isPrintable u = true) ∧ ¬ js ".." <:+: key := by
  rw [assertKeySegment, check_eq_ok, check_eq_ok, check_eq_ok]
  simp

theorem scopeOf_eq_ok {tenant : Option JsString} {scope : JsString} :
    scopeOf tenant = .ok scope ↔
      (∀ t, tenant = some t → isTenant t = true) ∧ scopeText tenant = scope := by
  cases tenant with
  | none => simp [scopeOf, scopeText]
  | some t =>
    rw [scopeOf, bind_eq_ok]
    by_cases h : isTenant t = true
    · simp [assertTenant, h, scopeText, pure, Except.pure]
    · simp [assertTenant, h]

theorem jobIdempotencyKey_eq_ok {parts : JobKeyParts} {out : JsString} :
    jobIdempotencyKey parts = .ok out ↔ Accepted parts ∧ out.length ≤ 255 ∧
      scopeText parts.tenant ++ slash :: (parts.name ++ slash :: parts.key) = out := by
  have hname : ∀ name, assertJobName parts.name = .ok name ↔
      isJobName parts.name = true ∧ parts.name = name := by
    intro name
    by_cases h : isJobName parts.name = true
    · simp [assertJobName, h]
    · simp [assertJobName, h]
  rw [jobIdempotencyKey, bind_eq_ok]
  constructor
  · rintro ⟨name, hok, h⟩
    obtain ⟨hjob, rfl⟩ := (hname name).mp hok
    obtain ⟨hkey, h⟩ := then_eq_ok.mp h
    obtain ⟨hnonempty, hprintable, hdots⟩ := assertKeySegment_eq_ok.mp hkey
    obtain ⟨scope, hscope, h⟩ := bind_eq_ok.mp h
    obtain ⟨htenant, rfl⟩ := scopeOf_eq_ok.mp hscope
    obtain ⟨hlength, h⟩ := check_eq_ok.mp h
    cases h
    exact ⟨⟨hjob, hnonempty, hprintable, hdots, htenant⟩, not_lt.mp hlength, rfl⟩
  · rintro ⟨haccepted, hlength, rfl⟩
    refine ⟨parts.name, (hname _).mpr ⟨haccepted.name, rfl⟩, then_eq_ok.mpr ⟨?_, ?_⟩⟩
    · exact assertKeySegment_eq_ok.mpr
        ⟨haccepted.nonempty, haccepted.printable, haccepted.dots⟩
    · refine bind_eq_ok.mpr ⟨_, scopeOf_eq_ok.mpr ⟨haccepted.tenant, rfl⟩, ?_⟩
      exact check_eq_ok.mpr ⟨not_lt.mpr hlength, rfl⟩

/-! ## The segments -/

def IsSegment (s : JsString) : Prop := ∀ u ∈ s, isPrintable u = true ∧ u ≠ slash

theorem isSegment_of_alphanumeric {s : JsString} (others : JsString)
    (hothers : ∀ u ∈ others, isPrintable u = true ∧ u ≠ slash)
    (h : ∀ u ∈ s, isAlphanumeric u = true ∨ u ∈ others) : IsSegment s := by
  intro u hu
  obtain hword | hother := h u hu
  · simp only [isAlphanumeric, isLower, isUpper, isDigit, Bool.or_eq_true, Bool.and_eq_true,
      decide_eq_true_eq] at hword
    constructor
    · simp only [isPrintable, Bool.and_eq_true, decide_eq_true_eq]
      omega
    · rintro rfl
      revert hword
      decide
  · exact hothers u hother

theorem isSegment_tenant {tenant : JsString} (h : isTenant tenant = true) : IsSegment tenant := by
  simp only [isTenant, Bool.and_eq_true, List.all_eq_true, Bool.or_eq_true,
    List.contains_iff_mem] at h
  refine isSegment_of_alphanumeric (js "_-") (by decide) fun u hu => ?_
  simp only [isAlphanumeric, Bool.or_eq_true]
  obtain (hlower | hdigit) | hother := h.2 u hu
  · exact .inl (.inl (.inl hlower))
  · exact .inl (.inr hdigit)
  · exact .inr hother

theorem isSegment_name {name : JsString} (h : isJobName name = true) : IsSegment name := by
  cases name with
  | nil => cases h
  | cons u rest =>
    simp only [isJobName, Bool.and_eq_true, List.all_eq_true, Bool.or_eq_true,
      List.contains_iff_mem] at h
    refine isSegment_of_alphanumeric (js "._:-") (by decide) fun v hv => ?_
    obtain rfl | hv := List.mem_cons.mp hv
    · simp only [isAlphanumeric, Bool.or_eq_true]
      exact .inl (.inl h.1.1)
    · exact h.2 v hv

theorem IsSegment.not_mem {s : JsString} (h : IsSegment s) : slash ∉ s :=
  fun hmem => (h slash hmem).2 rfl

theorem scopeText_inj {tenant tenant' : Option JsString} {rest rest' : JsString}
    (h : ∀ t, tenant = some t → isTenant t = true)
    (h' : ∀ t, tenant' = some t → isTenant t = true)
    (heq : scopeText tenant ++ slash :: rest = scopeText tenant' ++ slash :: rest') :
    tenant = tenant' ∧ rest = rest' := by
  -- the first unit tells the forms apart
  cases tenant with
  | none =>
    cases tenant' with
    | none => exact ⟨rfl, (separator_inj (by decide) (by decide) heq).2⟩
    | some t' => exact absurd (List.cons.inj heq).1 (by decide)
  | some t =>
    cases tenant' with
    | none => exact absurd (List.cons.inj heq).1 (by decide)
    | some t' =>
      have htail : t ++ slash :: rest = t' ++ slash :: rest' :=
        (List.cons.inj (List.cons.inj heq).2).2
      obtain ⟨rfl, hrest⟩ := separator_inj (isSegment_tenant (h t rfl)).not_mem
        (isSegment_tenant (h' t' rfl)).not_mem htail
      exact ⟨rfl, hrest⟩

/-! ## The main result -/

theorem Accepted.printable_text {parts : JobKeyParts} (h : Accepted parts) :
    ∀ u ∈ scopeText parts.tenant ++ slash :: (parts.name ++ slash :: parts.key),
      isPrintable u = true := by
  have hscope : ∀ u ∈ scopeText parts.tenant, isPrintable u = true := by
    cases htenant : parts.tenant with
    | none => decide
    | some t =>
      intro u hu
      obtain rfl | hu := List.mem_cons.mp hu
      · decide
      · obtain rfl | hu := List.mem_cons.mp hu
        · decide
        · exact (isSegment_tenant (h.tenant t htenant) u hu).1
  intro u hu
  simp only [List.mem_append, List.mem_cons] at hu
  obtain hu | rfl | hu | rfl | hu := hu
  · exact hscope u hu
  · decide
  · exact (isSegment_name h.name u hu).1
  · decide
  · exact h.printable u hu

/-- **A composed key is that of one triple**, and `enqueue` accepts it as an idempotency key. -/
theorem jobIdempotencyKey_injective :
    (∀ parts parts' out, jobIdempotencyKey parts = .ok out → jobIdempotencyKey parts' = .ok out →
      parts = parts') ∧
    ∀ parts out, jobIdempotencyKey parts = .ok out → assertIdempotencyKey out = .ok out := by
  constructor
  · intro parts parts' out h h'
    obtain ⟨haccepted, -, hout⟩ := jobIdempotencyKey_eq_ok.mp h
    obtain ⟨haccepted', -, hout'⟩ := jobIdempotencyKey_eq_ok.mp h'
    obtain ⟨htenant, hrest⟩ :=
      scopeText_inj haccepted.tenant haccepted'.tenant (hout.trans hout'.symm)
    obtain ⟨hname, hkey⟩ := separator_inj (isSegment_name haccepted.name).not_mem
      (isSegment_name haccepted'.name).not_mem hrest
    obtain ⟨tenant, name, key⟩ := parts
    obtain ⟨tenant', name', key'⟩ := parts'
    subst htenant hname hkey
    rfl
  · intro parts out h
    obtain ⟨haccepted, hlength, rfl⟩ := jobIdempotencyKey_eq_ok.mp h
    have hkey : isIdempotencyKey
        (scopeText parts.tenant ++ slash :: (parts.name ++ slash :: parts.key)) = true := by
      simp only [isIdempotencyKey, Bool.and_eq_true, decide_eq_true_eq, List.all_eq_true]
      refine ⟨⟨by simp, hlength⟩, fun u hu => ?_⟩
      simpa [isPrintable] using haccepted.printable_text u hu
    rw [assertIdempotencyKey, if_pos hkey]

theorem jobIdempotencyKey_injective_lookalike :
    ((⟨none, js "t", js "acme/mail/u1"⟩ : JobKeyParts) = ⟨none, js "t", js "acme/mail/u1"⟩) ∧
      assertIdempotencyKey (js "g/t/acme/mail/u1") = .ok (js "g/t/acme/mail/u1") ∧
      jobIdempotencyKey ⟨some (js "acme"), js "mail", js "u1"⟩ ≠ .ok (js "g/t/acme/mail/u1") := by
  have hcomposed : jobIdempotencyKey ⟨none, js "t", js "acme/mail/u1"⟩ =
      .ok (js "g/t/acme/mail/u1") := by decide +kernel
  refine ⟨jobIdempotencyKey_injective.1 _ _ _ hcomposed hcomposed,
    jobIdempotencyKey_injective.2 _ _ hcomposed, fun h => ?_⟩
  have heq := jobIdempotencyKey_injective.1 _ _ _ h hcomposed
  exact absurd heq (by decide)

end Daloy.Jobs
