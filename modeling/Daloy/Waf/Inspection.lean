import Daloy.Http.Headers
import Daloy.Waf.Scan

/-! # Inspecting a request

`waf`: the options with their defaults and checks, and the handler that scans the pathname, the
query, the headers of a list and the body, adds up the scores and decides.

* `collect_finds`: a walk over the body that is not truncated has every string and key at any depth.
-/

namespace Daloy.Waf
set_option autoImplicit false

open Daloy.Unicode Daloy.SearchPatterns Daloy.Json Daloy.Http

section
variable {ν : Type}

/-! ## Options -/

inductive WafMode
  | block
  | log
  deriving DecidableEq

inductive LimitPolicy
  | block
  | log
  | ignore
  deriving DecidableEq

structure WafInspectConfig where
  path : Option Bool
  query : Option Bool
  body : Option Bool
  headers : Option (List JsString)

structure WafOptions (ν : Type) where
  mode : Option WafMode
  rules : WafRuleId → Option (RuleOverride ν)
  blockThreshold : Option ν
  inspect : Option WafInspectConfig
  maxValueLength : Option ℕ
  maxBodyNodes : Option ℕ
  onLimitExceeded : Option LimitPolicy

/-- What the handler closes over. -/
structure Firewall (ν : Type) where
  mode : WafMode
  rules : List (ResolvedRule ν)
  blockThreshold : ν
  inspectPath : Bool
  inspectQuery : Bool
  inspectBody : Bool
  headerAllowlist : List JsString
  maxValueLength : ℕ
  maxBodyNodes : ℕ
  onLimitExceeded : LimitPolicy

def DEFAULT_MAX_VALUE_LENGTH : ℕ := 8192
def DEFAULT_MAX_BODY_NODES : ℕ := 10000

/-- The options with their defaults. `none` is a `TypeError`: a threshold or a score that is not
positive, or a limit of `0`. -/
def waf [OfNat ν 5] (isPositive : ν → Bool) (opts : WafOptions ν) : Option (Firewall ν) := do
  let blockThreshold := opts.blockThreshold.getD 5
  guard (isPositive blockThreshold)
  let maxValueLength := opts.maxValueLength.getD DEFAULT_MAX_VALUE_LENGTH
  guard (0 < maxValueLength)
  let maxBodyNodes := opts.maxBodyNodes.getD DEFAULT_MAX_BODY_NODES
  guard (0 < maxBodyNodes)
  let rules ← resolveRules isPositive 5 opts.rules
  return {
    mode := opts.mode.getD .block
    rules := rules
    blockThreshold := blockThreshold
    inspectPath := (opts.inspect.bind WafInspectConfig.path).getD true
    inspectQuery := (opts.inspect.bind WafInspectConfig.query).getD true
    inspectBody := (opts.inspect.bind WafInspectConfig.body).getD true
    headerAllowlist := ((opts.inspect.bind WafInspectConfig.headers).getD []).map toLowerCase
    maxValueLength := maxValueLength
    maxBodyNodes := maxBodyNodes
    onLimitExceeded := opts.onLimitExceeded.getD .block }

theorem waf_rules [OfNat ν 5] {isPositive : ν → Bool} {opts : WafOptions ν} {w : Firewall ν}
    (h : waf isPositive opts = some w) : RulesSound w.rules := by
  simp only [waf, Option.bind_eq_bind, Option.bind_eq_some_iff, Option.pure_def,
    Option.some.injEq] at h
  obtain ⟨-, -, -, -, -, -, rules, hrules, rfl⟩ := h
  exact resolveRules_sound hrules

/-! ## The request -/

section
variable {μ : Type}

/-- `new URL(…)`: without a search there are no search parameters. -/
structure Url where
  pathname : JsString
  search : JsString
  searchParams : List (JsString × JsString)
  params_of_search : search.length ≤ 1 → searchParams = []

/-- `header` is `headers.get`; no body is `undefined`. -/
structure Request (μ : Type) where
  url : Url
  header : JsString → Option JsString
  body : Option (Value μ)

/-! ## The body -/

mutual

def walkForMongoOperators : Value μ → Bool
  | .arr items => walkItems items
  | .obj members => walkMembers members
  | _ => false

def walkItems : List (Value μ) → Bool
  | [] => false
  | item :: rest => walkForMongoOperators item || walkItems rest

def walkMembers : List (JsString × Value μ) → Bool
  | [] => false
  | (key, value) :: rest =>
    key.head? == some 0x24 || walkForMongoOperators value || walkMembers rest

end

/-- The walk over the nodes on the stack, so many at most: what is left of the stack, and the strings
and keys. -/
def collect : ℕ → List (Value μ) → List JsString → List (Value μ) × List JsString
  | 0, stack, out => (stack, out)
  | _ + 1, [], out => ([], out)
  | nodes + 1, node :: stack, out =>
    match node with
    | .str s => collect nodes stack (out ++ [s])
    | .arr items => collect nodes (items ++ stack) out
    | .obj members =>
      collect nodes ((members.map Prod.snd).reverse ++ stack) (out ++ members.map Prod.fst)
    | _ => collect nodes stack out

def collectBodyStrings (root : Value μ) (maxNodes : ℕ) : List JsString × Bool :=
  let walked := collect maxNodes [root] []
  (walked.2, !walked.1.isEmpty)

/-- A string of a value or one of its keys, at any depth. -/
inductive TextIn : Value μ → JsString → Prop
  | str (s : JsString) : TextIn (.str s) s
  | item {items : List (Value μ)} {item : Value μ} {s : JsString} (hitem : item ∈ items)
      (h : TextIn item s) : TextIn (.arr items) s
  | key {members : List (JsString × Value μ)} {k : JsString} {v : Value μ}
      (hmember : (k, v) ∈ members) : TextIn (.obj members) k
  | member {members : List (JsString × Value μ)} {k : JsString} {v : Value μ} {s : JsString}
      (hmember : (k, v) ∈ members) (h : TextIn v s) : TextIn (.obj members) s

theorem collect_finds (nodes : ℕ) (stack : List (Value μ)) (out : List JsString) :
    (∀ s ∈ out, s ∈ (collect nodes stack out).2) ∧
      ((collect nodes stack out).1 = [] →
        ∀ node ∈ stack, ∀ s, TextIn node s → s ∈ (collect nodes stack out).2) := by
  induction nodes generalizing stack out with
  | zero =>
    refine ⟨fun s hs => hs, fun hempty node hnode => ?_⟩
    rw [collect] at hempty
    subst hempty
    cases hnode
  | succ nodes ih =>
    cases stack with
    | nil => exact ⟨fun s hs => hs, fun _ node hnode => by cases hnode⟩
    | cons node stack =>
      cases node with
      | str s =>
        obtain ⟨hkept, hfound⟩ := ih stack (out ++ [s])
        refine ⟨fun t ht => hkept t (List.mem_append_left _ ht), fun hempty => ?_⟩
        rw [List.forall_mem_cons]
        refine ⟨fun t ht => ?_, hfound hempty⟩
        cases ht
        exact hkept s (List.mem_append_right _ (List.mem_singleton_self s))
      | arr items =>
        obtain ⟨hkept, hfound⟩ := ih (items ++ stack) out
        refine ⟨hkept, fun hempty => ?_⟩
        rw [List.forall_mem_cons]
        refine ⟨fun t ht => ?_, fun other hother => ?_⟩
        · cases ht with
          | item hitem h => exact hfound hempty _ (List.mem_append_left _ hitem) t h
        · exact hfound hempty other (List.mem_append_right _ hother)
      | obj members =>
        obtain ⟨hkept, hfound⟩ :=
          ih ((members.map Prod.snd).reverse ++ stack) (out ++ members.map Prod.fst)
        refine ⟨fun t ht => hkept t (List.mem_append_left _ ht), fun hempty => ?_⟩
        rw [List.forall_mem_cons]
        refine ⟨fun t ht => ?_, fun other hother => ?_⟩
        · cases ht with
          | key hmember =>
            exact hkept t (List.mem_append_right _ (List.mem_map.mpr ⟨_, hmember, rfl⟩))
          | member hmember h =>
            refine hfound hempty _ (List.mem_append_left _ ?_) t h
            rw [List.mem_reverse]
            exact List.mem_map.mpr ⟨_, hmember, rfl⟩
        · exact hfound hempty other (List.mem_append_right _ hother)
      | null =>
        obtain ⟨hkept, hfound⟩ := ih stack out
        refine ⟨hkept, fun hempty => ?_⟩
        rw [List.forall_mem_cons]
        exact ⟨fun t ht => (nomatch ht), hfound hempty⟩
      | bool b =>
        obtain ⟨hkept, hfound⟩ := ih stack out
        refine ⟨hkept, fun hempty => ?_⟩
        rw [List.forall_mem_cons]
        exact ⟨fun t ht => (nomatch ht), hfound hempty⟩
      | num n =>
        obtain ⟨hkept, hfound⟩ := ih stack out
        refine ⟨hkept, fun hempty => ?_⟩
        rw [List.forall_mem_cons]
        exact ⟨fun t ht => (nomatch ht), hfound hempty⟩

/-! ## The handler -/

def scanAll (nfkc : Normalizer) (w : Firewall ν) (location : WafInspectionLocation)
    (values : List JsString) (scored : Scored ν) : Scored ν :=
  values.foldl (fun scored value =>
    scanValueVariants nfkc w.rules w.maxValueLength value location scored) scored

def queryValues (url : Url) : List JsString :=
  url.search.drop 1 :: url.searchParams.flatMap fun p => [p.1, p.2]

def headerValues (w : Firewall ν) (req : Request μ) : List JsString :=
  (w.headerAllowlist.filterMap req.header).filter (· ≠ [])

def inspectHead (nfkc : Normalizer) (w : Firewall ν) (req : Request μ) : Scored ν :=
  let scored : Scored ν := ∅
  let scored := if w.inspectPath then scanAll nfkc w .path [req.url.pathname] scored else scored
  let scored :=
    if w.inspectQuery ∧ 1 < req.url.search.length then
      scanAll nfkc w .query (queryValues req.url) scored
    else scored
  scanAll nfkc w .header (headerValues w req) scored

def inspectOperators (w : Firewall ν) (body : Value μ) (scored : Scored ν) : Scored ν :=
  match w.rules.find? (·.ruleId = .nosqli) with
  | some rule =>
    if (scored.get? .nosqli).isNone ∧ walkForMongoOperators body = true then
      scored.set .nosqli ⟨.rule .nosqli, rule.score, .body, js "$-prefixed operator key"⟩
    else scored
  | none => scored

/-- What the request carries: a match for each rule that fired, and that of a truncated walk. -/
structure Inspection (ν : Type) where
  scored : Scored ν
  limitMatch : Option (WafMatch ν)

def inspectBody (nfkc : Normalizer) (w : Firewall ν) (body : Value μ) (scored : Scored ν) :
    Inspection ν :=
  match body with
  | .str s => ⟨scanAll nfkc w .body [s] scored, none⟩
  | .arr _ | .obj _ =>
    let scored := inspectOperators w body scored
    let strings := collectBodyStrings body w.maxBodyNodes
    let scored := scanAll nfkc w .body strings.1 scored
    if strings.2 ∧ w.onLimitExceeded ≠ .ignore then
      ⟨scored, some ⟨.limits, w.blockThreshold, .body,
        js "body exceeded maxBodyNodes (" ++ NumberText.write w.maxBodyNodes ++ js ")"⟩⟩
    else ⟨scored, none⟩
  | _ => ⟨scored, none⟩

def inspection (nfkc : Normalizer) (w : Firewall ν) (req : Request μ) : Inspection ν :=
  if w.rules = [] then ⟨∅, none⟩
  else
    let scored := inspectHead nfkc w req
    match req.body with
    | some body => if w.inspectBody then inspectBody nfkc w body scored else ⟨scored, none⟩
    | none => ⟨scored, none⟩

inductive WafAction
  | blocked
  | logged
  deriving DecidableEq

/-- What is reported of a flagged request. -/
structure WafEvent (ν : Type) where
  action : WafAction
  score : ν
  threshold : ν
  matched : List (WafMatch ν)

/-- The decision; `blocked` is the `ForbiddenError`. -/
def verdict [Zero ν] [Add ν] [LT ν] [DecidableLT ν] (w : Firewall ν) (found : Inspection ν) :
    Option (WafEvent ν) :=
  if found.scored.size = 0 ∧ found.limitMatch.isNone then none
  else
    let signatureTotal := (found.scored.values.map WafMatch.score).foldl (· + ·) 0
    let total := signatureTotal + (found.limitMatch.map WafMatch.score).getD 0
    if total < w.blockThreshold then none
    else
      let enforce := w.mode = .block ∧
        (¬ signatureTotal < w.blockThreshold ∨ w.onLimitExceeded = .block)
      some ⟨if enforce then .blocked else .logged, total, w.blockThreshold,
        found.scored.values ++ found.limitMatch.toList⟩

def beforeHandle [Zero ν] [Add ν] [LT ν] [DecidableLT ν] (nfkc : Normalizer) (w : Firewall ν)
    (req : Request μ) : Option (WafEvent ν) :=
  verdict w (inspection nfkc w req)

/-! ## What is inspected is scanned -/

/-- The values of a request that are inspected. -/
inductive InspectedValue (w : Firewall ν) (req : Request μ) : JsString → Prop
  | path (h : w.inspectPath = true) : InspectedValue w req req.url.pathname
  | rawQuery (h : w.inspectQuery = true) : InspectedValue w req (req.url.search.drop 1)
  | queryName {k v : JsString} (h : w.inspectQuery = true) (hparam : (k, v) ∈ req.url.searchParams) :
      InspectedValue w req k
  | queryValue {k v : JsString} (h : w.inspectQuery = true) (hparam : (k, v) ∈ req.url.searchParams) :
      InspectedValue w req v
  | header {name value : JsString} (hname : name ∈ w.headerAllowlist)
      (hvalue : req.header name = some value) : InspectedValue w req value
  | body {body : Value μ} {s : JsString} (h : w.inspectBody = true) (hbody : req.body = some body)
      (hs : TextIn body s) : InspectedValue w req s

def FiresOnVariant (nfkc : Normalizer) (value : JsString) (rule : ResolvedRule ν) : Prop :=
  ∃ variant ∈ inspectionVariants nfkc value, FiresOn variant rule

theorem scanAll_covers (nfkc : Normalizer) {w : Firewall ν} (hrules : RulesSound w.rules)
    (hmax : 1024 ≤ w.maxValueLength) (location : WafInspectionLocation) (values : List JsString)
    (scored : Scored ν) :
    Covers w.rules scored (scanAll nfkc w location values scored)
      fun rule => ∃ value ∈ values, FiresOnVariant nfkc value rule := by
  rw [scanAll]
  induction values generalizing scored with
  | nil =>
    refine (Covers.refl w.rules scored).mono ?_
    rintro rule - ⟨value, hvalue, -⟩
    cases hvalue
  | cons value values ih =>
    rw [List.foldl_cons]
    refine ((scanValueVariants_covers nfkc hrules hmax value location scored).trans (ih _)).mono ?_
    rintro rule - ⟨v, hv, hfires⟩
    rw [List.mem_cons] at hv
    obtain rfl | hv := hv
    · exact .inl hfires
    · exact .inr ⟨v, hv, hfires⟩

theorem not_firesOnVariant_nil (nfkc : Normalizer) {rules : List (ResolvedRule ν)}
    (hrules : RulesSound rules) {rule : ResolvedRule ν} (hrule : rule ∈ rules) :
    ¬ FiresOnVariant nfkc [] rule := by
  rintro ⟨variant, hvariant, p, hp, htest⟩
  have hfold : nfkc.fold [] = [] := nfkc.fold_ascii [] (by simp)
  have hexpanded : ∀ y, Expanded nfkc [] y → y = [] := by
    rintro y ⟨b, ⟨k, -, d, hd, hb⟩, hform⟩
    obtain rfl := decodeTimes_of_fixed rfl hd
    have hnil : b = [] := by
      obtain rfl | rfl := hb
      · rfl
      · exact hfold
    subst hnil
    obtain rfl | rfl | rfl | rfl := hform <;> rfl
  have hnil : variant = [] := by
    obtain h | ⟨y, hy, hlong, -, -⟩ := (mem_inspectionVariants nfkc [] variant).mp hvariant
    · exact hexpanded variant h
    · rw [hexpanded y hy] at hlong
      cases hlong
  rw [hrules.own rule hrule] at hp
  rw [hnil, test_nil hp] at htest
  cases htest

theorem inspectHead_covers (nfkc : Normalizer) {w : Firewall ν} (hrules : RulesSound w.rules)
    (hmax : 1024 ≤ w.maxValueLength) (req : Request μ) :
    Covers w.rules ∅ (inspectHead nfkc w req) fun rule =>
      (w.inspectPath = true ∧ FiresOnVariant nfkc req.url.pathname rule) ∨
        (w.inspectQuery = true ∧ ∃ value ∈ queryValues req.url, FiresOnVariant nfkc value rule) ∨
          ∃ value ∈ headerValues w req, FiresOnVariant nfkc value rule := by
  rw [inspectHead]
  have hpath : ∀ scored : Scored ν, Covers w.rules scored
      (if w.inspectPath then scanAll nfkc w .path [req.url.pathname] scored else scored)
        fun rule => w.inspectPath = true ∧ FiresOnVariant nfkc req.url.pathname rule := by
    intro scored
    split
    · refine (scanAll_covers nfkc hrules hmax .path _ scored).mono ?_
      rintro rule - ⟨-, hfires⟩
      exact ⟨_, List.mem_singleton_self _, hfires⟩
    · rename_i hoff
      refine (Covers.refl w.rules scored).mono ?_
      rintro rule - ⟨hon, -⟩
      exact hoff hon
  have hquery : ∀ scored : Scored ν, Covers w.rules scored
      (if w.inspectQuery ∧ 1 < req.url.search.length then
        scanAll nfkc w .query (queryValues req.url) scored
      else scored)
        fun rule => w.inspectQuery = true ∧
          ∃ value ∈ queryValues req.url, FiresOnVariant nfkc value rule := by
    intro scored
    split
    · exact (scanAll_covers nfkc hrules hmax .query _ scored).mono fun _ _ h => h.2
    · rename_i hoff
      refine (Covers.refl w.rules scored).mono ?_
      rintro rule hrule ⟨hon, value, hvalue, hfires⟩
      have hshort : req.url.search.length ≤ 1 := by
        by_contra hlong
        exact hoff ⟨hon, Nat.lt_of_not_le hlong⟩
      rw [queryValues, req.url.params_of_search hshort, List.flatMap_nil, List.mem_singleton,
        List.drop_eq_nil_of_le hshort] at hvalue
      subst hvalue
      exact not_firesOnVariant_nil nfkc hrules hrule hfires
  refine (((hpath ∅).trans (hquery _)).trans
    (scanAll_covers nfkc hrules hmax .header (headerValues w req) _)).mono ?_
  rintro rule - (hfires | hfires | hfires)
  · exact .inl (.inl hfires)
  · exact .inl (.inr hfires)
  · exact .inr hfires

theorem inspectOperators_covers (w : Firewall ν) (body : Value μ) (scored : Scored ν) :
    Covers w.rules scored (inspectOperators w body scored) fun _ => False := by
  rw [inspectOperators]
  split
  · rename_i rule hfind
    split
    · have hrule := List.mem_of_find?_eq_some hfind
      have hid : rule.ruleId = .nosqli := by simpa using List.find?_some hfind
      refine ⟨fun hwithin ruleId h => ?_, fun ruleId h => ?_, fun _ _ _ h => h.elim⟩
      · rw [Recorded, JsMap.get?_set] at h
        split at h
        · rename_i heq
          rw [heq, ← hid]
          exact List.mem_map_of_mem hrule
        · exact hwithin ruleId h
      · rw [Recorded, JsMap.get?_set]
        split
        · rfl
        · exact h
    · exact Covers.refl w.rules scored
  · exact Covers.refl w.rules scored

theorem strings_covers (nfkc : Normalizer) {w : Firewall ν} (hrules : RulesSound w.rules)
    (hmax : 1024 ≤ w.maxValueLength) (body : Value μ) (scored : Scored ν) :
    Covers w.rules scored
      (scanAll nfkc w .body (collectBodyStrings body w.maxBodyNodes).1
        (inspectOperators w body scored))
      fun rule => (collectBodyStrings body w.maxBodyNodes).2 = false ∧
        ∃ s, TextIn body s ∧ FiresOnVariant nfkc s rule := by
  refine ((inspectOperators_covers w body scored).trans
    (scanAll_covers nfkc hrules hmax .body _ _)).mono ?_
  rintro rule - ⟨htruncated, s, hs, hfires⟩
  have hempty : (collect w.maxBodyNodes [body] []).1 = [] := by
    rwa [collectBodyStrings, Bool.not_eq_false', List.isEmpty_iff] at htruncated
  exact .inr ⟨s, (collect_finds w.maxBodyNodes [body] []).2 hempty body (by simp) s hs, hfires⟩

theorem inspectBody_covers (nfkc : Normalizer) {w : Firewall ν} (hrules : RulesSound w.rules)
    (hmax : 1024 ≤ w.maxValueLength) (hlimit : w.onLimitExceeded ≠ .ignore) (body : Value μ)
    (scored : Scored ν) :
    Covers w.rules scored (inspectBody nfkc w body scored).scored fun rule =>
      (inspectBody nfkc w body scored).limitMatch = none ∧
        ∃ s, TextIn body s ∧ FiresOnVariant nfkc s rule := by
  have hstrings : ∀ truncated : Bool, truncated = (collectBodyStrings body w.maxBodyNodes).2 →
      ∀ (found : Inspection ν),
        found = (if truncated = true ∧ w.onLimitExceeded ≠ .ignore then
          ⟨scanAll nfkc w .body (collectBodyStrings body w.maxBodyNodes).1
            (inspectOperators w body scored), some ⟨.limits, w.blockThreshold, .body,
              js "body exceeded maxBodyNodes (" ++ NumberText.write w.maxBodyNodes ++ js ")"⟩⟩
          else ⟨scanAll nfkc w .body (collectBodyStrings body w.maxBodyNodes).1
            (inspectOperators w body scored), none⟩) →
        Covers w.rules scored found.scored fun rule => found.limitMatch = none ∧
          ∃ s, TextIn body s ∧ FiresOnVariant nfkc s rule := by
    rintro truncated htruncated found rfl
    split
    · refine (strings_covers nfkc hrules hmax body scored).mono ?_
      rintro rule - ⟨hnone, -⟩
      cases hnone
    · rename_i hwhole
      refine (strings_covers nfkc hrules hmax body scored).mono ?_
      rintro rule - ⟨-, hfires⟩
      refine ⟨?_, hfires⟩
      rw [← htruncated, Bool.eq_false_iff]
      exact fun h => hwhole ⟨h, hlimit⟩
  cases body with
  | str s =>
    refine (scanAll_covers nfkc hrules hmax .body [s] scored).mono ?_
    rintro rule - ⟨-, t, ht, hfires⟩
    cases ht
    exact ⟨s, List.mem_singleton_self s, hfires⟩
  | arr items => exact hstrings _ rfl _ rfl
  | obj members => exact hstrings _ rfl _ rfl
  | null =>
    refine (Covers.refl w.rules scored).mono ?_
    rintro rule - ⟨-, t, ht, -⟩
    cases ht
  | bool b =>
    refine (Covers.refl w.rules scored).mono ?_
    rintro rule - ⟨-, t, ht, -⟩
    cases ht
  | num n =>
    refine (Covers.refl w.rules scored).mono ?_
    rintro rule - ⟨-, t, ht, -⟩
    cases ht

/-- **Padding hides nothing.** Where a signature of an enabled rule is found in a variant of anything
that is inspected, the rule is recorded, or the request has the limits match. -/
theorem padding_hides_nothing [OfNat ν 5] {isPositive : ν → Bool} {opts : WafOptions ν}
    {w : Firewall ν} (hw : waf isPositive opts = some w) (hmax : 1024 ≤ w.maxValueLength)
    (hlimit : w.onLimitExceeded ≠ .ignore) (nfkc : Normalizer) (req : Request μ)
    {rule : ResolvedRule ν} (hrule : rule ∈ w.rules) {value : JsString}
    (hvalue : InspectedValue w req value) {variant : JsString}
    (hvariant : variant ∈ inspectionVariants nfkc value) {p : Pattern}
    (hp : p ∈ SIGNATURES rule.ruleId) (htest : p.test variant = true) :
    Recorded (inspection nfkc w req).scored rule.ruleId ∨
      (inspection nfkc w req).limitMatch.isSome = true := by
  have hrules := waf_rules hw
  have hfires : FiresOnVariant nfkc value rule :=
    ⟨variant, hvariant, p, by rwa [hrules.own rule hrule], htest⟩
  have hwithin : Within w.rules (∅ : Scored ν) := by
    intro ruleId h
    rw [Recorded, JsMap.get?_empty] at h
    cases h
  have hhead := inspectHead_covers nfkc hrules hmax req
  rw [inspection, if_neg (List.ne_nil_of_mem hrule)]
  dsimp only
  -- What the head of the request has left recorded stays so, whatever the body is.
  have hkept : ∀ scored, scored = inspectHead nfkc w req → Recorded scored rule.ruleId →
      Recorded (match req.body with
        | some body => if w.inspectBody then inspectBody nfkc w body scored else ⟨scored, none⟩
        | none => ⟨scored, none⟩ : Inspection ν).scored rule.ruleId := by
    intro scored _ h
    split
    · split
      · exact (inspectBody_covers nfkc hrules hmax hlimit _ scored).keeps _ h
      · exact h
    · exact h
  cases hvalue with
  | path h => exact .inl (hkept _ rfl (hhead.finds hwithin rule hrule (.inl ⟨h, hfires⟩)))
  | rawQuery h =>
    refine .inl (hkept _ rfl (hhead.finds hwithin rule hrule (.inr (.inl ⟨h, _, ?_, hfires⟩))))
    exact List.mem_cons_self ..
  | queryName h hparam =>
    refine .inl (hkept _ rfl (hhead.finds hwithin rule hrule (.inr (.inl ⟨h, _, ?_, hfires⟩))))
    exact List.mem_cons_of_mem _ (List.mem_flatMap.mpr ⟨_, hparam, by simp⟩)
  | queryValue h hparam =>
    refine .inl (hkept _ rfl (hhead.finds hwithin rule hrule (.inr (.inl ⟨h, _, ?_, hfires⟩))))
    exact List.mem_cons_of_mem _ (List.mem_flatMap.mpr ⟨_, hparam, by simp⟩)
  | header hname hgot =>
    refine .inl (hkept _ rfl (hhead.finds hwithin rule hrule (.inr (.inr ⟨_, ?_, hfires⟩))))
    rw [headerValues, List.mem_filter, decide_eq_true_eq]
    refine ⟨List.mem_filterMap.mpr ⟨_, hname, hgot⟩, ?_⟩
    rintro rfl
    exact not_firesOnVariant_nil nfkc hrules hrule hfires
  | body h hbody hs =>
    rename_i body
    rw [hbody]
    dsimp only
    rw [if_pos h]
    have hcovers := inspectBody_covers nfkc hrules hmax hlimit body (inspectHead nfkc w req)
    cases hnone : (inspectBody nfkc w body (inspectHead nfkc w req)).limitMatch with
    | none =>
      exact .inl (hcovers.finds (hhead.within hwithin) rule hrule ⟨hnone, _, hs, hfires⟩)
    | some m => exact .inr rfl

end

end

/-! ## A request -/

/-- `waf()`, with natural numbers for scores. -/
def defaultFirewall : Firewall ℕ where
  mode := .block
  rules := ALL_RULE_IDS.map fun ruleId => ⟨ruleId, 5, SIGNATURES ruleId⟩
  blockThreshold := 5
  inspectPath := true
  inspectQuery := true
  inspectBody := true
  headerAllowlist := []
  maxValueLength := DEFAULT_MAX_VALUE_LENGTH
  maxBodyNodes := DEFAULT_MAX_BODY_NODES
  onLimitExceeded := .block

/-- `/;drop`, without a query and without a body. -/
def dropRequest : Request ℕ where
  url := ⟨js "/;drop", [], [], fun _ => rfl⟩
  header _ := none
  body := none

theorem padding_hides_nothing_drop :
    Recorded (inspection asciiNormalizer defaultFirewall dropRequest).scored .sqli ∨
      (inspection asciiNormalizer defaultFirewall dropRequest).limitMatch.isSome = true := by
  obtain ⟨p, hp, htest⟩ : ∃ p ∈ SIGNATURES .sqli, p.test (js "/;drop") = true :=
    List.any_eq_true.mp (by decide +kernel)
  have hrule : (⟨.sqli, 5, SIGNATURES .sqli⟩ : ResolvedRule ℕ) ∈ defaultFirewall.rules :=
    List.mem_cons_self ..
  have hwaf : waf (fun score => 0 < score) ⟨none, fun _ => none, none, none, none, none, none⟩ =
      some defaultFirewall := rfl
  have hfound := padding_hides_nothing hwaf (by decide) (by decide) asciiNormalizer dropRequest hrule
    (.path rfl) (self_mem_inspectionVariants asciiNormalizer _) hp htest
  exact hfound

end Daloy.Waf
