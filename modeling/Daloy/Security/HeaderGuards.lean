import Daloy.Http.Headers
import Mathlib.Data.Rat.Defs
import Mathlib.Tactic.NormNum

/-! # The guards on inbound headers

The three guards of `src/security.ts` on the header map of a request, and the single walk of
`assertInboundHeaderGuards` that stands for them in the dispatch.

* `reservedPrefixCommon`: the filter, for any list of reserved prefixes.
* `reject_headers`, `single_walk`: when each side throws what.
-/

namespace Daloy.Security.HeaderGuards
set_option autoImplicit false

open Daloy.Http Daloy.Unicode

/-! ## The source -/

inductive HeaderError
  /-- `BadRequestError`. -/
  | badRequest (detail : JsString)
  /-- `RequestHeaderFieldsTooLargeError`. -/
  | tooLarge (limit : ℚ)
  deriving DecidableEq

def HeaderError.status : HeaderError → ℕ
  | .badRequest _ => 400
  | .tooLarge _ => 431

/-- A header map: distinct names in lower case, in the order of `forEach`. -/
abbrev HeaderMap := JsMap JsString JsString

def smugglingSingletonHeaders : List JsString :=
  [js "host", js "content-length", js "transfer-encoding"]

def duplicateRejected (name : JsString) : HeaderError :=
  .badRequest (js "Duplicate " ++ name ++ js " header rejected")

def reservedRejected (name : JsString) : HeaderError :=
  .badRequest (js "Reserved internal header rejected: " ++ name)

def assertNoDuplicateSingletonHeaders (headers : HeaderMap) : Except HeaderError Unit :=
  smugglingSingletonHeaders.forM fun name =>
    match headers.get? name with
    | some v => if comma ∈ v then .error (duplicateRejected name) else .ok ()
    | none => .ok ()

def rejectReserved (reserved : List JsString) (name : JsString) : Except HeaderError Unit :=
  reserved.forM fun pre => if pre <+: name then .error (reservedRejected name) else .ok ()

def assertNoReservedInternalHeaders (reserved : List JsString) (headers : HeaderMap) :
    Except HeaderError Unit :=
  headers.entries.forM fun header => rejectReserved reserved header.1

/-- The limit when it is enforced; `none` is a number that is not finite. -/
def enforced (limit : Option ℚ) : Option ℚ := limit.filter fun limit => 0 < limit

def assertHeaderCountWithinLimit (headers : HeaderMap) (limit : Option ℚ) :
    Except HeaderError Unit :=
  match enforced limit with
  | none => .ok ()
  | some limit => do
    let _ ← headers.entries.foldlM (fun (count : ℕ) _ =>
      if (count + 1 : ℚ) > limit then .error (.tooLarge limit) else .ok (count + 1)) 0

/-- How far two prefixes agree: the inner loop of `RESERVED_PREFIX_COMMON`. -/
def agreement : JsString → JsString → ℕ
  | u :: common, v :: pre => if u = v then agreement common pre + 1 else 0
  | _, _ => 0

def reservedPrefixCommon (reserved : List JsString) : JsString :=
  reserved.foldl (fun common pre => common.take (agreement common pre)) (reserved.headD [])

/-- The callback of `forEach` in `assertInboundHeaderGuards`: the count and `overLimit` go on. -/
def inboundStep (reserved : List JsString) (limit : Option ℚ) (walk : ℕ × Bool)
    (header : JsString × JsString) : Except HeaderError (ℕ × Bool) := do
  if header.1 ∈ smugglingSingletonHeaders ∧ comma ∈ header.2 then
    .error (duplicateRejected header.1)
  else
    if reservedPrefixCommon reserved <+: header.1 then rejectReserved reserved header.1
    match enforced limit with
    | none => .ok walk
    | some limit => .ok (walk.1 + 1, walk.2 || decide ((walk.1 + 1 : ℚ) > limit))

def assertInboundHeaderGuards (reserved : List JsString) (headers : HeaderMap)
    (limit : Option ℚ) : Except HeaderError Unit := do
  let walk ← headers.entries.foldlM (inboundStep reserved limit) (0, false)
  if walk.2 then .error (.tooLarge (limit.getD 0)) else .ok ()

def assertSequentially (reserved : List JsString) (headers : HeaderMap) (limit : Option ℚ) :
    Except HeaderError Unit := do
  assertNoDuplicateSingletonHeaders headers
  assertNoReservedInternalHeaders reserved headers
  assertHeaderCountWithinLimit headers limit

def outcome : Except HeaderError Unit → Option ℕ
  | .ok _ => none
  | .error e => some e.status

/-! ## The filter -/

theorem take_agreement (common pre : JsString) : common.take (agreement common pre) <+: pre := by
  induction common generalizing pre with
  | nil => exact List.nil_prefix
  | cons u common ih =>
    cases pre with
    | nil => exact List.nil_prefix
    | cons v pre =>
      rw [agreement]
      split
      · rename_i huv
        rw [huv, List.take_succ_cons, List.cons_prefix_cons]
        exact ⟨rfl, ih pre⟩
      · exact List.nil_prefix

theorem foldl_agreement (reserved : List JsString) (common : JsString) :
    reserved.foldl (fun common pre => common.take (agreement common pre)) common <+: common ∧
      ∀ pre ∈ reserved,
        reserved.foldl (fun common pre => common.take (agreement common pre)) common <+: pre := by
  induction reserved generalizing common with
  | nil => exact ⟨List.prefix_rfl, by simp⟩
  | cons pre reserved ih =>
    obtain ⟨hcommon, hrest⟩ := ih (common.take (agreement common pre))
    rw [List.foldl_cons]
    refine ⟨hcommon.trans (List.take_prefix _ _), ?_⟩
    intro other hother
    obtain rfl | hother := List.mem_cons.mp hother
    · exact hcommon.trans (take_agreement common other)
    · exact hrest other hother

theorem reservedPrefixCommon_leads {reserved : List JsString} {pre name : JsString}
    (hmem : pre ∈ reserved) (hname : pre <+: name) : reservedPrefixCommon reserved <+: name :=
  ((foldl_agreement reserved _).2 pre hmem).trans hname

/-! ## The three guards -/

section Loops
variable {α : Type} {l : List α} {f : α → Except HeaderError Unit}

theorem forM_cons (a : α) : (a :: l).forM f = (f a >>= fun _ => l.forM f) := rfl

theorem forM_eq_ok : l.forM f = .ok () ↔ ∀ a ∈ l, f a = .ok () := by
  induction l with
  | nil => simp [pure, Except.pure]
  | cons a l ih =>
    rw [forM_cons, Fallible.bind_eq_ok, List.forall_mem_cons, ← ih]
    constructor
    · intro h
      obtain ⟨u, hu, hrest⟩ := h
      exact ⟨hu, hrest⟩
    · intro h
      exact ⟨(), h.1, h.2⟩

theorem outcome_forM {s : ℕ} (h : ∀ a, outcome (f a) = none ∨ outcome (f a) = some s) :
    outcome (l.forM f) = none ∨ outcome (l.forM f) = some s := by
  induction l with
  | nil => exact .inl rfl
  | cons a l ih =>
    rw [forM_cons]
    cases hfa : f a with
    | error e =>
      have ha := h a
      rw [hfa] at ha
      exact ha
    | ok u => exact ih

end Loops

def Reserved (reserved : List JsString) (name : JsString) : Prop := ∃ pre ∈ reserved, pre <+: name

theorem rejectReserved_eq_ok {reserved : List JsString} {name : JsString} :
    rejectReserved reserved name = .ok () ↔ ¬ Reserved reserved name := by
  rw [rejectReserved, forM_eq_ok, Reserved, not_exists]
  refine forall_congr' fun pre => ?_
  rw [not_and]
  refine imp_congr_right fun _ => ?_
  by_cases hname : pre <+: name <;> simp [hname]

theorem outcome_rejectReserved (reserved : List JsString) (name : JsString) :
    outcome (rejectReserved reserved name) = none ∨
      outcome (rejectReserved reserved name) = some 400 := by
  refine outcome_forM fun pre => ?_
  split
  · exact .inr rfl
  · exact .inl rfl

def Bad (reserved : List JsString) (header : JsString × JsString) : Prop :=
  (header.1 ∈ smugglingSingletonHeaders ∧ comma ∈ header.2) ∨ Reserved reserved header.1

variable {reserved : List JsString} {headers : HeaderMap}

theorem assertNoDuplicateSingletonHeaders_eq_ok :
    assertNoDuplicateSingletonHeaders headers = .ok () ↔
      ∀ header ∈ headers.entries, ¬ (header.1 ∈ smugglingSingletonHeaders ∧ comma ∈ header.2) := by
  rw [assertNoDuplicateSingletonHeaders, forM_eq_ok]
  constructor
  · intro h header hmem hdup
    have hname := h header.1 hdup.1
    rw [JsMap.get?_eq_some.mpr hmem] at hname
    dsimp only at hname
    rw [if_pos hdup.2] at hname
    cases hname
  · intro h name hname
    split
    · rename_i v hget
      rw [if_neg]
      exact fun hcomma => h (name, v) (JsMap.get?_eq_some.mp hget) ⟨hname, hcomma⟩
    · rfl

theorem outcome_assertNoDuplicateSingletonHeaders (headers : HeaderMap) :
    outcome (assertNoDuplicateSingletonHeaders headers) = none ∨
      outcome (assertNoDuplicateSingletonHeaders headers) = some 400 := by
  refine outcome_forM fun name => ?_
  split
  · split
    · exact .inr rfl
    · exact .inl rfl
  · exact .inl rfl

theorem assertNoReservedInternalHeaders_eq_ok :
    assertNoReservedInternalHeaders reserved headers = .ok () ↔
      ∀ header ∈ headers.entries, ¬ Reserved reserved header.1 := by
  rw [assertNoReservedInternalHeaders, forM_eq_ok]
  exact forall₂_congr fun _ _ => rejectReserved_eq_ok

def TooMany (limit : Option ℚ) (count : ℕ) : Prop := ∃ l, enforced limit = some l ∧ (count : ℚ) > l

theorem foldlM_count {α : Type} (l : List α) (limit : ℚ) (n : ℕ) (hn : ¬ (n : ℚ) > limit) :
    l.foldlM (fun (count : ℕ) _ =>
      if (count + 1 : ℚ) > limit then Except.error (HeaderError.tooLarge limit)
      else .ok (count + 1)) n =
        if ((n + l.length : ℕ) : ℚ) > limit then .error (.tooLarge limit)
        else .ok (n + l.length) := by
  induction l generalizing n with
  | nil =>
    rw [List.length_nil, Nat.add_zero, if_neg hn]
    rfl
  | cons a l ih =>
    rw [List.foldlM_cons, List.length_cons]
    by_cases hnext : (n + 1 : ℚ) > limit
    · have hle : (n + 1 : ℚ) ≤ ((n + (l.length + 1) : ℕ) : ℚ) := by
        have hnat : n + 1 ≤ n + (l.length + 1) := by omega
        exact_mod_cast hnat
      rw [if_pos hnext, if_pos (lt_of_lt_of_le hnext hle)]
      rfl
    · rw [if_neg hnext]
      have hcast : ¬ ((n + 1 : ℕ) : ℚ) > limit := by exact_mod_cast hnext
      have hrest := ih (n + 1) hcast
      have hlength : n + 1 + l.length = n + (l.length + 1) := by omega
      rw [hlength] at hrest
      exact hrest

theorem outcome_assertHeaderCountWithinLimit (headers : HeaderMap) (limit : Option ℚ) :
    (TooMany limit headers.entries.length →
      outcome (assertHeaderCountWithinLimit headers limit) = some 431) ∧
    (¬ TooMany limit headers.entries.length →
      outcome (assertHeaderCountWithinLimit headers limit) = none) := by
  rw [assertHeaderCountWithinLimit, TooMany]
  cases hlimit : enforced limit with
  | none => exact ⟨fun ⟨l, hl, _⟩ => absurd hl (by simp), fun _ => rfl⟩
  | some l =>
    have hpos : 0 < l := by
      have hfilter := (Option.filter_eq_some_iff.mp hlimit).2
      simpa using hfilter
    dsimp only
    rw [foldlM_count headers.entries l 0 (by simpa using hpos.le), Nat.zero_add]
    constructor
    · rintro ⟨l', hl', hmany⟩
      obtain rfl := Option.some.inj hl'
      rw [if_pos hmany]
      rfl
    · intro hfew
      rw [if_neg fun hmany => hfew ⟨l, rfl, hmany⟩]
      rfl

theorem reject_headers (reserved : List JsString) (headers : HeaderMap) (limit : Option ℚ) :
    ((∃ header ∈ headers.entries, Bad reserved header) →
      outcome (assertSequentially reserved headers limit) = some 400) ∧
    ((¬ ∃ header ∈ headers.entries, Bad reserved header) →
      outcome (assertSequentially reserved headers limit) =
        outcome (assertHeaderCountWithinLimit headers limit)) := by
  rw [assertSequentially]
  cases hdup : assertNoDuplicateSingletonHeaders headers with
  | error e =>
    have hstatus := outcome_assertNoDuplicateSingletonHeaders headers
    rw [hdup] at hstatus
    refine ⟨fun _ => hstatus.resolve_left (by simp [outcome]), fun hnone => ?_⟩
    have hok : assertNoDuplicateSingletonHeaders headers = .ok () :=
      assertNoDuplicateSingletonHeaders_eq_ok.mpr fun header hmem hbad =>
        hnone ⟨header, hmem, .inl hbad⟩
    rw [hdup] at hok
    cases hok
  | ok u =>
    have hsingle := assertNoDuplicateSingletonHeaders_eq_ok.mp hdup
    cases hres : assertNoReservedInternalHeaders reserved headers with
    | error e =>
      have hstatus : outcome (assertNoReservedInternalHeaders reserved headers) = none ∨
          outcome (assertNoReservedInternalHeaders reserved headers) = some 400 :=
        outcome_forM fun header => outcome_rejectReserved reserved header.1
      rw [hres] at hstatus
      refine ⟨fun _ => hstatus.resolve_left (by simp [outcome]), fun hnone => ?_⟩
      have hok : assertNoReservedInternalHeaders reserved headers = .ok () :=
        assertNoReservedInternalHeaders_eq_ok.mpr fun header hmem hbad =>
          hnone ⟨header, hmem, .inr hbad⟩
      rw [hres] at hok
      cases hok
    | ok u =>
      have hclean := assertNoReservedInternalHeaders_eq_ok.mp hres
      refine ⟨fun hbad => ?_, fun _ => rfl⟩
      obtain ⟨header, hmem, hdup | hreserved⟩ := hbad
      · exact absurd hdup (hsingle header hmem)
      · exact absurd hreserved (hclean header hmem)

/-! ## The single walk -/

theorem inboundStep_of_not_bad {header : JsString × JsString} (h : ¬ Bad reserved header)
    (limit : Option ℚ) (walk : ℕ × Bool) :
    inboundStep reserved limit walk header = match enforced limit with
      | none => .ok walk
      | some limit => .ok (walk.1 + 1, walk.2 || decide ((walk.1 + 1 : ℚ) > limit)) := by
  rw [Bad, not_or] at h
  rw [inboundStep, if_neg h.1, rejectReserved_eq_ok.mpr h.2]
  by_cases hpre : reservedPrefixCommon reserved <+: header.1
  · rw [if_pos hpre]
    split <;> rfl
  · rw [if_neg hpre]

theorem outcome_inboundStep_of_bad {header : JsString × JsString} (h : Bad reserved header)
    (limit : Option ℚ) (walk : ℕ × Bool) :
    ∃ e, inboundStep reserved limit walk header = .error e ∧ e.status = 400 := by
  rw [inboundStep]
  split
  · exact ⟨_, rfl, rfl⟩
  · rename_i hsingle
    have hres : Reserved reserved header.1 := h.resolve_left hsingle
    obtain ⟨pre, hpre, hname⟩ := hres
    rw [if_pos (reservedPrefixCommon_leads hpre hname)]
    cases hreject : rejectReserved reserved header.1 with
    | ok u => exact absurd ⟨pre, hpre, hname⟩ (rejectReserved_eq_ok.mp hreject)
    | error e =>
      have hstatus := outcome_rejectReserved reserved header.1
      rw [hreject] at hstatus
      exact ⟨e, rfl, Option.some.inj (hstatus.resolve_left (by simp [outcome]))⟩

theorem foldlM_of_bad (l : List (JsString × JsString)) (limit : Option ℚ) (walk : ℕ × Bool)
    (h : ∃ header ∈ l, Bad reserved header) :
    ∃ e, l.foldlM (inboundStep reserved limit) walk = .error e ∧ e.status = 400 := by
  induction l generalizing walk with
  | nil => simp at h
  | cons header l ih =>
    rw [List.foldlM_cons]
    by_cases hbad : Bad reserved header
    · obtain ⟨e, he, hstatus⟩ := outcome_inboundStep_of_bad hbad limit walk
      rw [he]
      exact ⟨e, rfl, hstatus⟩
    · have hrest : ∃ header ∈ l, Bad reserved header := by
        obtain ⟨other, hmem, hother⟩ := h
        obtain rfl | hmem := List.mem_cons.mp hmem
        · exact absurd hother hbad
        · exact ⟨other, hmem, hother⟩
      rw [inboundStep_of_not_bad hbad]
      split
      · exact ih walk hrest
      · exact ih _ hrest

theorem foldlM_of_clean (l : List (JsString × JsString)) {limit : Option ℚ}
    (h : ¬ ∃ header ∈ l, Bad reserved header) :
    (enforced limit = none → ∀ walk, l.foldlM (inboundStep reserved limit) walk = .ok walk) ∧
    (∀ most, enforced limit = some most → ∀ n : ℕ,
      l.foldlM (inboundStep reserved limit) (n, decide ((n : ℚ) > most)) =
        .ok (n + l.length, decide (((n + l.length : ℕ) : ℚ) > most))) := by
  induction l with
  | nil => exact ⟨fun _ _ => rfl, fun _ _ _ => rfl⟩
  | cons header l ih =>
    have hbad : ¬ Bad reserved header := fun hbad => h ⟨header, List.mem_cons_self, hbad⟩
    obtain ⟨hoff, hon⟩ := ih fun ⟨other, hmem, hother⟩ =>
      h ⟨other, List.mem_cons_of_mem _ hmem, hother⟩
    constructor
    · intro hlimit walk
      rw [List.foldlM_cons, inboundStep_of_not_bad hbad, hlimit]
      exact hoff hlimit walk
    · intro most hlimit n
      have hnext : (decide ((n : ℚ) > most) || decide ((n + 1 : ℚ) > most)) =
          decide (((n + 1 : ℕ) : ℚ) > most) := by
        rw [Nat.cast_add, Nat.cast_one, Bool.or_eq_right_iff_imp, decide_eq_true_eq,
          decide_eq_true_eq]
        intro hlt
        linarith
      have hrest := hon most hlimit (n + 1)
      have hlength : n + 1 + l.length = n + (l.length + 1) := by omega
      rw [hlength] at hrest
      rw [List.foldlM_cons, inboundStep_of_not_bad hbad, hlimit]
      dsimp only
      rw [hnext]
      exact hrest

theorem single_walk (reserved : List JsString) (headers : HeaderMap) (limit : Option ℚ) :
    ((∃ header ∈ headers.entries, Bad reserved header) →
      outcome (assertInboundHeaderGuards reserved headers limit) = some 400) ∧
    ((¬ ∃ header ∈ headers.entries, Bad reserved header) →
      outcome (assertInboundHeaderGuards reserved headers limit) =
        outcome (assertHeaderCountWithinLimit headers limit)) := by
  rw [assertInboundHeaderGuards]
  constructor
  · intro hbad
    obtain ⟨e, he, hstatus⟩ := foldlM_of_bad headers.entries limit (0, false) hbad
    rw [he]
    exact congrArg some hstatus
  · intro hclean
    obtain ⟨hoff, hon⟩ := @foldlM_of_clean reserved headers.entries limit hclean
    obtain ⟨hmany, hfew⟩ := outcome_assertHeaderCountWithinLimit headers limit
    cases hlimit : enforced limit with
    | none =>
      have hnot : ¬ TooMany limit headers.entries.length := by
        rintro ⟨l, hl, -⟩
        rw [hlimit] at hl
        cases hl
      rw [hoff hlimit, hfew hnot]
      rfl
    | some most =>
      have hpos : 0 < most := by
        have hfilter := (Option.filter_eq_some_iff.mp hlimit).2
        simpa using hfilter
      have hzero : decide (((0 : ℕ) : ℚ) > most) = false := by simpa using hpos.le
      have hwalk := hon most hlimit 0
      rw [hzero, Nat.zero_add] at hwalk
      rw [hwalk]
      by_cases htoo : (headers.entries.length : ℚ) > most
      · rw [hmany ⟨most, hlimit, htoo⟩]
        simp [bind, Except.bind, htoo, outcome, HeaderError.status]
      · have hnot : ¬ TooMany limit headers.entries.length := by
          rintro ⟨l, hl, hgt⟩
          rw [hlimit] at hl
          obtain rfl := Option.some.inj hl
          exact htoo hgt
        rw [hfew hnot]
        simp [bind, Except.bind, htoo, outcome]

/-- **The single walk is the three guards in their order**: for every header map, every limit and
every list of reserved prefixes, both accept, both answer 400 or both answer 431. -/
theorem guards_fused (reserved : List JsString) (headers : HeaderMap) (limit : Option ℚ) :
    outcome (assertInboundHeaderGuards reserved headers limit) =
      outcome (assertSequentially reserved headers limit) := by
  by_cases hbad : ∃ header ∈ headers.entries, Bad reserved header
  · rw [(single_walk reserved headers limit).1 hbad, (reject_headers reserved headers limit).1 hbad]
  · rw [(single_walk reserved headers limit).2 hbad, (reject_headers reserved headers limit).2 hbad]

end Daloy.Security.HeaderGuards
