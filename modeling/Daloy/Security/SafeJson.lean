import Daloy.Foundations.JsonParse

/-! # `safeJsonParse`

The JSON reader of `src/security.ts`, which drops the property names that reach an object's
prototype from every object it reads.

* `Json`: a well-formed JSON value. `JsonText`: a text that `JSON.stringify` made of one.
* `safeJsonParse_stringify`: on such a text the reader answers with the value it was made of, less
  the forbidden members; all of it when there were none.
-/

namespace Daloy.Security
set_option autoImplicit false

open Daloy.Unicode Daloy.Json

def forbiddenKeys : List JsString := [js "__proto__", js "constructor", js "prototype"]

def isForbiddenObjectKey (key : JsString) : Bool := forbiddenKeys.contains key

variable {ν : Type}

mutual
def strip : Value ν → Value ν
  | .arr items => .arr (stripItems items)
  | .obj members => .obj (stripMembers members)
  | v => v

def stripItems : List (Value ν) → List (Value ν)
  | [] => []
  | v :: items => strip v :: stripItems items

def stripMembers : List (JsString × Value ν) → List (JsString × Value ν)
  | [] => []
  | (k, v) :: members =>
    if isForbiddenObjectKey k then stripMembers members else (k, strip v) :: stripMembers members
end

/-! ## Stripping keeps the order -/

theorem stripMembers_keys (members : List (JsString × Value ν)) :
    (stripMembers members).map Prod.fst =
      (members.map Prod.fst).filter fun k => !isForbiddenObjectKey k := by
  induction members with
  | nil => rfl
  | cons m members ih =>
    obtain ⟨k, v⟩ := m
    rw [stripMembers, List.map_cons]
    split
    · next h => rw [List.filter_cons_of_neg (by simp [h]), ih]
    · next h =>
      rw [List.filter_cons_of_pos (by simp [h]), List.map_cons, ih]

theorem ownOrdered_iff {α : Type} {members : List (JsString × α)} :
    OwnOrdered members ↔ (members.map Prod.fst).Nodup ∧
      (members.map Prod.fst).Pairwise fun k l => goesBefore l k = false := by
  rw [OwnOrdered, List.pairwise_map]

theorem ownOrdered_stripMembers {members : List (JsString × Value ν)} (h : OwnOrdered members) :
    OwnOrdered (stripMembers members) := by
  rw [ownOrdered_iff] at h ⊢
  rw [stripMembers_keys]
  exact ⟨h.1.filter _, h.2.filter _⟩

mutual
theorem wellFormed_strip : ∀ v : Value ν, v.WellFormed → (strip v).WellFormed
  | .null, _ => by simp [strip, Value.WellFormed]
  | .bool _, _ => by simp [strip, Value.WellFormed]
  | .num _, _ => by simp [strip, Value.WellFormed]
  | .str _, _ => by simp [strip, Value.WellFormed]
  | .arr items, h => by
    rw [Value.WellFormed] at h
    rw [strip, Value.WellFormed]
    exact wellFormed_stripItems items h
  | .obj members, h => by
    rw [Value.WellFormed] at h
    rw [strip, Value.WellFormed]
    exact ⟨ownOrdered_stripMembers h.1, wellFormed_stripMembers members h.2⟩

theorem wellFormed_stripItems :
    ∀ items : List (Value ν), WellFormedItems items → WellFormedItems (stripItems items)
  | [], _ => by simp [stripItems, WellFormedItems]
  | v :: items, h => by
    rw [WellFormedItems] at h
    rw [stripItems, WellFormedItems]
    exact ⟨wellFormed_strip v h.1, wellFormed_stripItems items h.2⟩

theorem wellFormed_stripMembers : ∀ members : List (JsString × Value ν),
    WellFormedMembers members → WellFormedMembers (stripMembers members)
  | [], _ => by simp [stripMembers, WellFormedMembers]
  | (k, v) :: members, h => by
    rw [WellFormedMembers] at h
    rw [stripMembers]
    split
    · exact wellFormed_stripMembers members h.2
    · rw [WellFormedMembers]
      exact ⟨wellFormed_strip v h.1, wellFormed_stripMembers members h.2⟩
end

/-! ## The first forbidden key -/

mutual
def firstForbidden : Value ν → Option JsString
  | .arr items => firstForbiddenItems items
  | .obj members => firstForbiddenMembers members
  | _ => none

def firstForbiddenItems : List (Value ν) → Option JsString
  | [] => none
  | v :: items => (firstForbidden v).or (firstForbiddenItems items)

def firstForbiddenMembers : List (JsString × Value ν) → Option JsString
  | [] => none
  | (k, v) :: members =>
    if isForbiddenObjectKey k then some k
    else (firstForbidden v).or (firstForbiddenMembers members)
end

mutual
theorem strip_eq_self : ∀ v : Value ν, firstForbidden v = none → strip v = v
  | .null, _ => by rw [strip]; all_goals simp
  | .bool _, _ => by rw [strip]; all_goals simp
  | .num _, _ => by rw [strip]; all_goals simp
  | .str _, _ => by rw [strip]; all_goals simp
  | .arr items, h => by
    rw [firstForbidden] at h
    rw [strip, stripItems_eq_self items h]
  | .obj members, h => by
    rw [firstForbidden] at h
    rw [strip, stripMembers_eq_self members h]

theorem stripItems_eq_self : ∀ items : List (Value ν), firstForbiddenItems items = none →
    stripItems items = items
  | [], _ => by rw [stripItems]
  | v :: items, h => by
    rw [firstForbiddenItems, Option.or_eq_none_iff] at h
    rw [stripItems, strip_eq_self v h.1, stripItems_eq_self items h.2]

theorem stripMembers_eq_self : ∀ members : List (JsString × Value ν),
    firstForbiddenMembers members = none → stripMembers members = members
  | [], _ => by rw [stripMembers]
  | (k, v) :: members, h => by
    rw [firstForbiddenMembers] at h
    split at h
    · simp at h
    · next hk =>
      rw [Option.or_eq_none_iff] at h
      rw [stripMembers, if_neg hk, strip_eq_self v h.1, stripMembers_eq_self members h.2]
end

/-! ## What a handler finds in a body -/

/-- One step into a value. -/
inductive Access
  | key (k : JsString)
  | index (i : ℕ)

def Access.forbidden : Access → Bool
  | .key k => isForbiddenObjectKey k
  | .index _ => false

def at? : List Access → Value ν → Option (Value ν)
  | [], v => some v
  | .key k :: path, .obj members => (members.find? (·.1 = k)).bind fun m => at? path m.2
  | .index i :: path, .arr items => items[i]?.bind (at? path)
  | _ :: _, _ => none

theorem find?_stripMembers (k : JsString) (members : List (JsString × Value ν)) :
    (stripMembers members).find? (·.1 = k) = if isForbiddenObjectKey k then none
      else (members.find? (·.1 = k)).map fun m => (m.1, strip m.2) := by
  induction members with
  | nil => simp [stripMembers]
  | cons m members ih =>
    obtain ⟨l, v⟩ := m
    rw [stripMembers, List.find?_cons]
    by_cases hl : l = k
    · subst hl
      by_cases hforbidden : isForbiddenObjectKey l <;> simp [hforbidden, ih]
    · by_cases hforbidden : isForbiddenObjectKey l <;> simp [hforbidden, ih, hl]

theorem getElem?_stripItems (items : List (Value ν)) (i : ℕ) :
    (stripItems items)[i]? = items[i]?.map strip := by
  induction items generalizing i with
  | nil => simp [stripItems]
  | cons v items ih =>
    cases i with
    | zero => simp [stripItems]
    | succ i => simpa [stripItems] using ih i

/-- `w` has what `v` has, except behind forbidden keys. -/
def Spares (v w : Value ν) : Prop :=
  ∀ path, at? path w = if path.any Access.forbidden then none else (at? path v).map strip

theorem spares_strip (v : Value ν) : Spares v (strip v) := by
  intro path
  induction path generalizing v with
  | nil => simp [at?]
  | cons a path ih =>
    cases v with
    | arr items =>
      cases a with
      | key k => simp [strip, at?]
      | index i =>
        cases hitem : items[i]? <;> simp [strip, at?, getElem?_stripItems, hitem, ih, Access.forbidden]
    | obj members =>
      cases a with
      | index i => simp [strip, at?]
      | key k =>
        rw [strip, at?, at?, find?_stripMembers, List.any_cons, Access.forbidden]
        by_cases hforbidden : isForbiddenObjectKey k
        · simp [hforbidden]
        · cases hmember : members.find? (·.1 = k) <;> simp [hforbidden, ih]
    | _ => cases a <;> simp [strip, at?]

/-! ## The reader -/

abbrev Json (ν : Type) := { v : Value ν // v.WellFormed }

variable [NumberText ν]

/-- `safeJsonParse(text)`: `.ok none` is `undefined`, the answer to the empty text, and `.error` its
`BadRequestError`. -/
def safeJsonParse (text : JsString) : Except String (Option (Value ν)) :=
  if text.length = 0 then .ok none
  else
    match parse text with
    | none => .error "Invalid JSON"
    | some v => .ok (some (strip v))

theorem safeJsonParse_stringify (v : Json ν) :
    safeJsonParse (stringify v.1) = .ok (some (strip v.1)) := by
  obtain ⟨u, rest, hu, -⟩ := stringify_head v.1
  rw [safeJsonParse, if_neg (by simp [hu]), parse_stringify v.2]

/-- A text that `JSON.stringify` made. -/
abbrev JsonText (ν : Type) [NumberText ν] := { text : JsString // ∃ v : Json ν, stringify v.1 = text }

/-- `JSON.stringify(v)`. -/
def Json.text (v : Json ν) : JsonText ν := ⟨stringify v.1, v, rfl⟩

/-- `safeJsonParse(text)` on a text that has a value. -/
def JsonText.read (t : JsonText ν) : Json ν :=
  match h : safeJsonParse (ν := ν) t.1 with
  | .ok (some v) => ⟨v, by
      obtain ⟨text, w, rfl⟩ := t
      rw [safeJsonParse_stringify w] at h
      simp only [Except.ok.injEq, Option.some.injEq] at h
      exact h ▸ wellFormed_strip w.1 w.2⟩
  | .ok none | .error _ => ⟨.null, trivial⟩

theorem Json.read_text (v : Json ν) (h : firstForbidden v.1 = none) :
    JsonText.read v.text = v := by
  have hparse := safeJsonParse_stringify v
  rw [strip_eq_self v.1 h] at hparse
  unfold JsonText.read Json.text
  split
  · next w hw =>
    rw [hparse] at hw
    simp only [Except.ok.injEq, Option.some.injEq] at hw
    exact Subtype.ext hw.symm
  · next hw => rw [hparse] at hw; simp at hw
  · next hw => rw [hparse] at hw; simp at hw

/-- **Nothing that reaches a prototype is read, and nothing else is lost**: behind any path into the
value that was read there is what the text has there, unless the path has a forbidden key. -/
theorem safe_json_at (text : JsString) (w : Value ν) (hread : safeJsonParse text = .ok (some w)) :
    ∃ v, parse text = some v ∧ Spares v w := by
  rw [safeJsonParse] at hread
  split at hread
  · simp at hread
  · cases hparse : parse (ν := ν) text with
    | none => simp [hparse] at hread
    | some v =>
      simp only [hparse, Except.ok.injEq, Option.some.injEq] at hread
      exact ⟨v, rfl, hread ▸ spares_strip v⟩

def polluted : Json ℕ :=
  ⟨.obj [(js "__proto__", .null)], by simp [Value.WellFormed, WellFormedMembers, OwnOrdered]⟩

theorem safe_json_at_polluted :
    ∃ v, parse (stringify polluted.1) = some v ∧ Spares v (strip polluted.1) :=
  safe_json_at _ _ (safeJsonParse_stringify polluted)

end Daloy.Security
