import Daloy.OpenApi.Diff

/-! # New obligations of callers

What a caller of the published API owes, and what `diffOpenAPI` reports of it.

* `NewObligation`: an operation or a response is gone, a body or a parameter became required. A
  parameter of a path item applies to each operation under it.
* `Visible`: the same, as the operations show it by themselves; `breaking_ne_nil_iff`.
* `Hidden`: what the operations do not show.
-/

namespace Daloy.OpenApi
set_option autoImplicit false

open Daloy.Json Daloy.Unicode

variable {ν : Type}

/-! ## Documents -/

/-- A document, with distinct keys in its objects. -/
structure Document (ν : Type) where
  value : Value ν
  wellFormed : value.WellFormed

def operationAt (doc : Value ν) (path method : JsString) : Option (JsonObject ν) :=
  operation (operationsOf (member (pathsOf doc) path)) method

def pathItemAt (doc : Value ν) (path : JsString) : JsonObject ν :=
  (asObject (member (pathsOf doc) path)).getD []

/-- The parameter that applies to an operation, by where it is and its name: its own, or the one of
its path item. -/
def applying (pathItem op : JsonObject ν) (key : JsString × JsString) : Option (JsonObject ν) :=
  ((parametersBy Prod.mk op).get? key).or ((parametersBy Prod.mk pathItem).get? key)

def NewlyRequired (before now : Option (JsonObject ν)) : Prop :=
  now.any isRequiredParam = true ∧ before.any isRequiredParam = false

instance (before now : Option (JsonObject ν)) : Decidable (NewlyRequired before now) :=
  inferInstanceAs (Decidable (_ ∧ _))

inductive NewObligation (baseline current : Value ν) : Prop
  | operationGone {path method : JsString} {baseOp : JsonObject ν}
      (before : operationAt baseline path method = some baseOp)
      (now : operationAt current path method = none)
  | responseGone {path method status : JsString} {baseOp curOp : JsonObject ν}
      (before : operationAt baseline path method = some baseOp)
      (now : operationAt current path method = some curOp)
      (documented : status ∈ (responsesOf baseOp).map Prod.fst)
      (gone : status ∉ (responsesOf curOp).map Prod.fst)
  | bodyRequired {path method : JsString} {baseOp curOp : JsonObject ν}
      (before : operationAt baseline path method = some baseOp)
      (now : operationAt current path method = some curOp)
      (optional : requestBodyRequired baseOp = false) (required : requestBodyRequired curOp = true)
  | parameterRequired {path method : JsString} {baseOp curOp : JsonObject ν}
      {key : JsString × JsString}
      (before : operationAt baseline path method = some baseOp)
      (now : operationAt current path method = some curOp)
      (required : NewlyRequired (applying (pathItemAt baseline path) baseOp key)
        (applying (pathItemAt current path) curOp key))

inductive Visible (baseline current : Value ν) : Prop
  | operationGone {path method : JsString} {baseOp : JsonObject ν}
      (before : operationAt baseline path method = some baseOp)
      (now : operationAt current path method = none)
  | responseGone {path method status : JsString} {baseOp curOp : JsonObject ν}
      (before : operationAt baseline path method = some baseOp)
      (now : operationAt current path method = some curOp)
      (documented : status ∈ (responsesOf baseOp).map Prod.fst)
      (gone : status ∉ (responsesOf curOp).map Prod.fst) (plain : status ∉ objectPrototype)
  | bodyRequired {path method : JsString} {baseOp curOp : JsonObject ν}
      (before : operationAt baseline path method = some baseOp)
      (now : operationAt current path method = some curOp)
      (optional : requestBodyRequired baseOp = false) (required : requestBodyRequired curOp = true)
  | parameterRequired {path method key : JsString} {baseOp curOp : JsonObject ν}
      (before : operationAt baseline path method = some baseOp)
      (now : operationAt current path method = some curOp)
      (required : NewlyRequired ((parametersOf baseOp).get? key) ((parametersOf curOp).get? key))

/-- What they do not show: a parameter that is required through a path item, or in place of an
optional one that it covered, and a response under a name that every object inherits. -/
inductive Hidden (baseline current : Value ν) : Prop
  | parameterRequired {path method : JsString} {baseOp curOp : JsonObject ν}
      {key : JsString × JsString}
      (before : operationAt baseline path method = some baseOp)
      (now : operationAt current path method = some curOp)
      (required : NewlyRequired (applying (pathItemAt baseline path) baseOp key)
        (applying (pathItemAt current path) curOp key))
      (unlisted : ¬ NewlyRequired ((parametersOf baseOp).get? (parameterKey key.1 key.2))
        ((parametersOf curOp).get? (parameterKey key.1 key.2)))
  | responseGone {path method status : JsString} {baseOp curOp : JsonObject ν}
      (before : operationAt baseline path method = some baseOp)
      (now : operationAt current path method = some curOp)
      (documented : status ∈ (responsesOf baseOp).map Prod.fst)
      (gone : status ∉ (responsesOf curOp).map Prod.fst) (inherited : status ∈ objectPrototype)

variable {baseline current : Value ν}

theorem NewObligation.split (h : NewObligation baseline current) :
    Visible baseline current ∨ Hidden baseline current := by
  cases h with
  | operationGone before now => exact .inl (.operationGone before now)
  | @responseGone path method status baseOp curOp before now documented gone =>
    by_cases hproto : status ∈ objectPrototype
    · exact .inr (.responseGone before now documented gone hproto)
    · exact .inl (.responseGone before now documented gone hproto)
  | bodyRequired before now optional required =>
    exact .inl (.bodyRequired before now optional required)
  | @parameterRequired path method baseOp curOp key before now required =>
    by_cases hlisted : NewlyRequired ((parametersOf baseOp).get? (parameterKey key.1 key.2))
        ((parametersOf curOp).get? (parameterKey key.1 key.2))
    · exact .inl (.parameterRequired before now hlisted)
    · exact .inr (.parameterRequired before now required hlisted)

theorem Hidden.obligation (h : Hidden baseline current) : NewObligation baseline current := by
  cases h with
  | parameterRequired before now required unlisted => exact .parameterRequired before now required
  | responseGone before now documented gone inherited =>
    exact .responseGone before now documented gone

/-! ## What is reported -/

section Reported

theorem breaking_concat_ne_nil {results : List OpenAPIDiffResult} :
    (OpenAPIDiffResult.concat results).breaking ≠ [] ↔
      ∃ result ∈ results, result.breaking ≠ [] := by
  simp [OpenAPIDiffResult.concat]

theorem diffResponses_breaking {baseOp curOp : JsonObject ν} {place : JsString} :
    (diffResponses baseOp curOp place).breaking ≠ [] ↔
      ∃ status ∈ (responsesOf baseOp).map Prod.fst,
        status ∉ (responsesOf curOp).map Prod.fst ∧ status ∉ objectPrototype := by
  rw [diffResponses, breaking_concat_ne_nil]
  simp only [List.mem_map, exists_exists_and_eq_and]
  refine exists_congr fun status => and_congr_right fun _ => ?_
  rw [isIn]
  split
  · rename_i hin
    simp only [Bool.or_eq_true, decide_eq_true_eq, List.mem_map] at hin
    simp only [ne_eq, not_true_eq_false, false_iff, not_and_or, not_not]
    exact hin
  · rename_i hin
    simp only [Bool.or_eq_true, decide_eq_true_eq, List.mem_map, not_or] at hin
    simp only [OpenAPIDiffResult.push, ne_eq, List.cons_ne_self, not_false_eq_true, true_iff,
      reduceCtorEq]
    exact hin

theorem diffParameters_breaking {baseOp curOp : JsonObject ν} {place : JsString} :
    (diffParameters baseOp curOp place).breaking ≠ [] ↔
      ∃ key, NewlyRequired ((parametersOf baseOp).get? key) ((parametersOf curOp).get? key) := by
  rw [diffParameters]
  simp only [breaking_concat_ne_nil, List.mem_cons, List.not_mem_nil, or_false, exists_eq_or_imp,
    exists_eq_left, List.mem_map, exists_exists_and_eq_and]
  constructor
  · intro h
    obtain ⟨⟨key, baseParam⟩, hmem, hbreaking⟩ | ⟨⟨key, curParam⟩, hmem, hbreaking⟩ := h
    · have hget := JsMap.get?_eq_some.mpr hmem
      refine ⟨key, ?_⟩
      rw [hget]
      dsimp only at hbreaking
      cases hcur : (parametersOf curOp).get? key with
      | none =>
        rw [hcur] at hbreaking
        simp [diffBaseParameter, OpenAPIDiffResult.push] at hbreaking
      | some curParam =>
        rw [hcur, diffBaseParameter] at hbreaking
        split at hbreaking
        · rename_i hrequired
          rw [Bool.and_eq_true, Bool.not_eq_true'] at hrequired
          exact ⟨hrequired.2, hrequired.1⟩
        · simp at hbreaking
    · have hget := JsMap.get?_eq_some.mpr hmem
      refine ⟨key, ?_⟩
      dsimp only at hbreaking
      split at hbreaking
      · simp at hbreaking
      · rename_i hnone
        rw [Option.not_isSome_iff_eq_none] at hnone
        rw [hget, hnone]
        rw [diffNewParameter] at hbreaking
        split at hbreaking
        · rename_i hrequired
          exact ⟨hrequired, rfl⟩
        · simp [OpenAPIDiffResult.push] at hbreaking
  · intro h
    obtain ⟨key, hnow, hbefore⟩ := h
    cases hcur : (parametersOf curOp).get? key with
    | none => simp [hcur] at hnow
    | some curParam =>
      rw [hcur, Option.any_some] at hnow
      cases hbase : (parametersOf baseOp).get? key with
      | some baseParam =>
        rw [hbase, Option.any_some] at hbefore
        refine .inl ⟨(key, baseParam), JsMap.get?_eq_some.mp hbase, ?_⟩
        simp [hcur, diffBaseParameter, hnow, hbefore, OpenAPIDiffResult.push]
      | none =>
        refine .inr ⟨(key, curParam), JsMap.get?_eq_some.mp hcur, ?_⟩
        simp [hbase, diffNewParameter, hnow, OpenAPIDiffResult.push]

theorem diffRequestBody_breaking {baseOp curOp : JsonObject ν} {place : JsString} :
    (diffRequestBody baseOp curOp place).breaking ≠ [] ↔
      requestBodyRequired baseOp = false ∧ requestBodyRequired curOp = true := by
  rw [diffRequestBody]
  split
  · rename_i h
    rw [Bool.and_eq_true, Bool.not_eq_true'] at h
    simp [OpenAPIDiffResult.push, h]
  · rename_i h
    rw [Bool.and_eq_true, Bool.not_eq_true'] at h
    simp only [ne_eq, not_true_eq_false, false_iff]
    exact h

theorem diffOperation_breaking {method path : JsString} {baseOp curOp : JsonObject ν} :
    (diffOperation method path baseOp (some curOp)).breaking ≠ [] ↔
      (∃ status ∈ (responsesOf baseOp).map Prod.fst,
        status ∉ (responsesOf curOp).map Prod.fst ∧ status ∉ objectPrototype) ∨
      (∃ key, NewlyRequired ((parametersOf baseOp).get? key) ((parametersOf curOp).get? key)) ∨
      (requestBodyRequired baseOp = false ∧ requestBodyRequired curOp = true) := by
  rw [diffOperation, breaking_concat_ne_nil]
  simp only [List.mem_cons, List.not_mem_nil, or_false, exists_eq_or_imp, exists_eq_left]
  rw [diffResponses_breaking, diffParameters_breaking, diffRequestBody_breaking]
  refine or_congr_right (or_congr_right ?_)
  refine or_iff_left ?_
  split <;> simp [OpenAPIDiffResult.push]

theorem operationAdded_breaking (method path : JsString) :
    (operationAdded method path).breaking = [] := rfl

theorem diffPath_breaking {path : JsString} {baseItem curItem : Option (Value ν)} :
    (diffPath path baseItem curItem).breaking ≠ [] ↔
      ∃ op ∈ operationsOf baseItem,
        (diffOperation op.1 path op.2 (operation (operationsOf curItem) op.1)).breaking ≠ [] := by
  rw [diffPath]
  simp only [breaking_concat_ne_nil, List.mem_cons, List.not_mem_nil, or_false, exists_eq_or_imp,
    exists_eq_left, List.mem_map, exists_exists_and_eq_and]
  refine or_iff_left ?_
  intro h
  obtain ⟨op, -, hbreaking⟩ := h
  split at hbreaking
  · exact hbreaking rfl
  · exact hbreaking (operationAdded_breaking op.1 path)

end Reported

/-! ## Lookups in documents -/

theorem mem_iff_find {α : Type} {entries : List (JsString × α)} {key : JsString} {value : α}
    (hnodup : (entries.map Prod.fst).Nodup) :
    (key, value) ∈ entries ↔ (entries.find? fun e => e.1 = key).map Prod.snd = some value :=
  (@JsMap.get?_eq_some _ _ _ ⟨entries, hnodup⟩ key value).symm

theorem operationsOf_nodup (pathItem : Option (Value ν)) :
    ((operationsOf pathItem).map Prod.fst).Nodup := by
  rw [operationsOf]
  split
  · exact List.nodup_nil
  · rename_i item _
    have hsub : ((httpMethods.filterMap fun method =>
        (asObject (member item method)).map fun op => (method, op)).map Prod.fst).Sublist
          httpMethods := by
      have hall : ∀ methods : List JsString, ((methods.filterMap fun method =>
          (asObject (member item method)).map fun op => (method, op)).map Prod.fst).Sublist
            methods := by
        intro methods
        induction methods with
        | nil => exact List.Sublist.slnil
        | cons method methods ih =>
          cases hop : asObject (member item method) with
          | none =>
            rw [List.filterMap_cons_none (by rw [hop]; rfl)]
            exact ih.cons method
          | some op =>
            rw [List.filterMap_cons_some (b := (method, op)) (by rw [hop]; rfl), List.map_cons]
            exact ih.cons_cons method
      exact hall httpMethods
    exact hsub.nodup (by decide)

theorem mem_operationsOf {pathItem : Option (Value ν)} {method : JsString} {op : JsonObject ν} :
    (method, op) ∈ operationsOf pathItem ↔ operation (operationsOf pathItem) method = some op :=
  mem_iff_find (operationsOf_nodup pathItem)

theorem wellFormedMembers_of_mem {members : JsonObject ν} {m : JsString × Value ν}
    (h : WellFormedMembers members) (hm : m ∈ members) : m.2.WellFormed := by
  induction members with
  | nil => cases hm
  | cons m' members ih =>
    obtain ⟨k, v⟩ := m'
    obtain rfl | hm := List.mem_cons.mp hm
    · exact h.1
    · exact ih h.2 hm

theorem wellFormed_member {object : JsonObject ν} {key : JsString} {v : Value ν}
    (h : (Value.obj object).WellFormed) (hv : member object key = some v) : v.WellFormed := by
  have hnodup : (object.map Prod.fst).Nodup := h.1.1
  exact wellFormedMembers_of_mem h.2 ((mem_iff_find hnodup).mpr hv)

theorem pathsOf_nodup (doc : Document ν) : ((pathsOf doc.value).map Prod.fst).Nodup := by
  obtain ⟨value, hwell⟩ := doc
  rw [pathsOf]
  cases value with
  | obj members =>
    dsimp only [asObject, Option.bind_some]
    cases hpaths : member members (js "paths") with
    | none => exact List.nodup_nil
    | some paths =>
      have hpaths' := wellFormed_member hwell hpaths
      cases paths with
      | obj paths => exact hpaths'.1.1
      | null | bool b | num n | str s | arr items => exact List.nodup_nil
  | null | bool b | num n | str s | arr items => exact List.nodup_nil

theorem operationAt_eq_some (doc : Document ν) {path method : JsString} {op : JsonObject ν} :
    operationAt doc.value path method = some op ↔
      ∃ item, (path, item) ∈ pathsOf doc.value ∧ (method, op) ∈ operationsOf (some item) := by
  rw [operationAt]
  constructor
  · intro h
    cases hitem : member (pathsOf doc.value) path with
    | none =>
      rw [hitem] at h
      cases h
    | some item =>
      rw [hitem] at h
      exact ⟨item, (mem_iff_find (pathsOf_nodup doc)).mpr hitem, mem_operationsOf.mpr h⟩
  · intro h
    obtain ⟨item, hitem, hop⟩ := h
    have hmember : member (pathsOf doc.value) path = some item :=
      (mem_iff_find (pathsOf_nodup doc)).mp hitem
    rw [hmember]
    exact mem_operationsOf.mp hop

/-! ## The result -/

section Result
variable [DecidableEq ν] [NumberText ν]

theorem diffVersion_breaking (baseline current : Value ν) :
    (diffVersion baseline current).breaking = [] := by
  rw [diffVersion]
  split <;> rfl

theorem breaking_ne_nil_iff (baseline : Document ν) (current : Value ν) :
    (diffOpenAPI baseline.value current).breaking ≠ [] ↔ Visible baseline.value current := by
  have hloops : (diffOpenAPI baseline.value current).breaking ≠ [] ↔
      ∃ path item method op, (path, item) ∈ pathsOf baseline.value ∧
        (method, op) ∈ operationsOf (some item) ∧
        (diffOperation method path op (operationAt current path method)).breaking ≠ [] := by
    rw [diffOpenAPI]
    simp only [breaking_concat_ne_nil, List.mem_cons, List.not_mem_nil, or_false, exists_eq_or_imp,
      exists_eq_left, List.mem_map, exists_exists_and_eq_and, diffPath_breaking]
    constructor
    · intro h
      obtain hversion | ⟨⟨path, item⟩, hpath, ⟨method, op⟩, hop, hbreaking⟩ | ⟨path, -, hadded⟩ := h
      · exact absurd (diffVersion_breaking baseline.value current) hversion
      · exact ⟨path, item, method, op, hpath, hop, hbreaking⟩
      · split at hadded
        · exact absurd rfl hadded
        · rw [breaking_concat_ne_nil] at hadded
          obtain ⟨result, hresult, hbreaking⟩ := hadded
          obtain ⟨op, -, rfl⟩ := List.mem_map.mp hresult
          exact absurd (operationAdded_breaking op.1 path.1) hbreaking
    · intro h
      obtain ⟨path, item, method, op, hpath, hop, hbreaking⟩ := h
      exact .inr (.inl ⟨(path, item), hpath, (method, op), hop, hbreaking⟩)
  rw [hloops]
  constructor
  · intro h
    obtain ⟨path, item, method, op, hpath, hop, hbreaking⟩ := h
    have hbefore := (operationAt_eq_some baseline).mpr ⟨item, hpath, hop⟩
    cases hnow : operationAt current path method with
    | none => exact .operationGone hbefore hnow
    | some curOp =>
      rw [hnow, diffOperation_breaking] at hbreaking
      obtain ⟨status, hdoc, hgone, hplain⟩ | ⟨key, hrequired⟩ | ⟨hoptional, hrequired⟩ := hbreaking
      · exact .responseGone hbefore hnow hdoc hgone hplain
      · exact .parameterRequired hbefore hnow hrequired
      · exact .bodyRequired hbefore hnow hoptional hrequired
  · intro h
    cases h with
    | @operationGone path method baseOp before now =>
      obtain ⟨item, hpath, hop⟩ := (operationAt_eq_some baseline).mp before
      refine ⟨path, item, method, baseOp, hpath, hop, ?_⟩
      rw [now]
      simp [diffOperation, OpenAPIDiffResult.push]
    | @responseGone path method status baseOp curOp before now documented gone plain =>
      obtain ⟨item, hpath, hop⟩ := (operationAt_eq_some baseline).mp before
      refine ⟨path, item, method, baseOp, hpath, hop, ?_⟩
      rw [now, diffOperation_breaking]
      exact .inl ⟨status, documented, gone, plain⟩
    | @bodyRequired path method baseOp curOp before now optional required =>
      obtain ⟨item, hpath, hop⟩ := (operationAt_eq_some baseline).mp before
      refine ⟨path, item, method, baseOp, hpath, hop, ?_⟩
      rw [now, diffOperation_breaking]
      exact .inr (.inr ⟨optional, required⟩)
    | @parameterRequired path method key baseOp curOp before now required =>
      obtain ⟨item, hpath, hop⟩ := (operationAt_eq_some baseline).mp before
      refine ⟨path, item, method, baseOp, hpath, hop, ?_⟩
      rw [now, diffOperation_breaking]
      exact .inr (.inl ⟨key, required⟩)

omit [DecidableEq ν] [NumberText ν] in
theorem not_newlyRequired (p : Option (JsonObject ν)) : ¬ NewlyRequired p p := by
  intro h
  rw [NewlyRequired, h.1] at h
  exact Bool.noConfusion h.2

theorem not_visible_self (doc : Value ν) : ¬ Visible doc doc := by
  intro h
  cases h with
  | operationGone before now =>
    rw [before] at now
    cases now
  | responseGone before now documented gone plain =>
    obtain rfl := Option.some.inj (before.symm.trans now)
    exact gone documented
  | bodyRequired before now optional required =>
    obtain rfl := Option.some.inj (before.symm.trans now)
    rw [optional] at required
    cases required
  | parameterRequired before now required =>
    obtain rfl := Option.some.inj (before.symm.trans now)
    exact not_newlyRequired _ required

end Result

/-! ## A parameter of a path item -/

/-- `{ "paths": { "/books": item } }`. -/
def booksDocument (item : JsonObject ℕ) : Value ℕ :=
  .obj [(js "paths", .obj [(js "/books", .obj item)])]

/-- A required parameter `tenant` of the query. -/
def tenant : Value ℕ :=
  .obj [(js "name", .str (js "tenant")), (js "in", .str (js "query")), (js "required", .bool true)]

def booksBefore : Document ℕ where
  value := booksDocument [(js "get", .obj [])]
  wellFormed := by
    simp [booksDocument, Value.WellFormed, WellFormedMembers, OwnOrdered]

def booksNow : Document ℕ where
  value := booksDocument [(js "get", .obj []), (js "parameters", .arr [tenant])]
  wellFormed := by
    have hkeys : js "get" ≠ js "parameters" := by decide
    have horder : goesBefore (js "parameters") (js "get") = false := by decide
    have hnames : (js "name" ≠ js "in" ∧ js "name" ≠ js "required") ∧ js "in" ≠ js "required" := by
      decide
    have horders : (goesBefore (js "in") (js "name") = false ∧
        goesBefore (js "required") (js "name") = false) ∧
          goesBefore (js "required") (js "in") = false := by
      decide
    simp [booksDocument, tenant, Value.WellFormed, WellFormedMembers, WellFormedItems, OwnOrdered,
      hkeys, horder]
    exact ⟨hnames, horders⟩

theorem Visible.through {baseline current : Value ν} (h : Visible baseline current)
    (between : Value ν) : Visible baseline between ∨ Visible between current := by
  have hkept {path method : JsString} {baseOp : JsonObject ν}
      (before : operationAt baseline path method = some baseOp) :
      Visible baseline between ∨ ∃ op, operationAt between path method = some op := by
    cases hop : operationAt between path method with
    | none => exact .inl (.operationGone before hop)
    | some op => exact .inr ⟨op, rfl⟩
  cases h with
  | operationGone before now =>
    obtain hgone | ⟨op, hop⟩ := hkept before
    · exact .inl hgone
    · exact .inr (.operationGone hop now)
  | @responseGone path method status baseOp curOp before now documented gone plain =>
    obtain hgone | ⟨op, hop⟩ := hkept before
    · exact .inl hgone
    by_cases hstatus : status ∈ (responsesOf op).map Prod.fst
    · exact .inr (.responseGone hop now hstatus gone plain)
    · exact .inl (.responseGone before hop documented hstatus plain)
  | bodyRequired before now optional required =>
    obtain hgone | ⟨op, hop⟩ := hkept before
    · exact .inl hgone
    cases hbody : requestBodyRequired op with
    | false => exact .inr (.bodyRequired hop now hbody required)
    | true => exact .inl (.bodyRequired before hop optional hbody)
  | @parameterRequired path method key baseOp curOp before now required =>
    obtain hgone | ⟨op, hop⟩ := hkept before
    · exact .inl hgone
    cases hparam : ((parametersOf op).get? key).any isRequiredParam with
    | false => exact .inr (.parameterRequired hop now ⟨required.1, hparam⟩)
    | true => exact .inl (.parameterRequired before hop ⟨hparam, required.2⟩)

variable [DecidableEq ν] [NumberText ν]

def Compatible (a b : Document ν) : Prop := (diffOpenAPI a.value b.value).breaking = []

theorem compatible_iff {a b : Document ν} : Compatible a b ↔ ¬ Visible a.value b.value := by
  rw [← breaking_ne_nil_iff, not_not, Compatible]

theorem Compatible.trans {a b c : Document ν} (hab : Compatible a b) (hbc : Compatible b c) :
    Compatible a c := by
  rw [compatible_iff] at hab hbc ⊢
  exact fun h => (h.through b.value).elim hab hbc

/-- **Compatible releases add up**: where no release breaks the one before it, none breaks any
earlier one, itself included. -/
theorem compatible_chain (releases : List (Document ν))
    (hchain : releases.IsChain Compatible) (i j : ℕ) (hij : i ≤ j) (a b : Document ν)
    (ha : releases[i]? = some a) (hb : releases[j]? = some b) :
    (diffOpenAPI a.value b.value).breaking = [] := by
  rcases hij.eq_or_lt with rfl | hlt
  · obtain rfl := Option.some.inj (ha.symm.trans hb)
    exact compatible_iff.mpr (not_visible_self _)
  · have : IsTrans (Document ν) Compatible := ⟨fun _ _ _ => Compatible.trans⟩
    have hpairs := List.isChain_iff_pairwise.mp hchain
    obtain ⟨hi, rfl⟩ := List.getElem?_eq_some_iff.mp ha
    obtain ⟨hj, rfl⟩ := List.getElem?_eq_some_iff.mp hb
    exact List.pairwise_iff_getElem.mp hpairs i j hi hj hlt

/-- The parameter of the path item comes and goes, which no release shows. -/
theorem compatible_chain_books :
    (diffOpenAPI booksNow.value booksNow.value).breaking = [] :=
  compatible_chain [booksNow, booksBefore, booksNow]
    (.cons_cons (by rw [Compatible]; decide)
      (.cons_cons (by rw [Compatible]; decide) (.singleton _)))
    0 2 (by decide) _ _ rfl rfl

end Daloy.OpenApi
