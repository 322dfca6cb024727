import Mathlib.Data.List.Nodup

/-! # Insertion-ordered maps

Nothing here mentions a program. `JsMap κ α` is a map that remembers the order of insertion: setting
a key that is there keeps its place, setting a new one appends. Each operation has one lemma that
says what `get?` finds afterwards; `mem_values` connects `get?` with the values in order.
-/

namespace Daloy
set_option autoImplicit false

/-- A list of entries with distinct keys, in insertion order. -/
structure JsMap (κ α : Type) where
  entries : List (κ × α)
  nodup : (entries.map Prod.fst).Nodup
  deriving DecidableEq

namespace JsMap
variable {κ α : Type}

def values (m : JsMap κ α) : List α := m.entries.map Prod.snd

def size (m : JsMap κ α) : ℕ := m.entries.length

def empty : JsMap κ α := ⟨[], List.nodup_nil⟩

instance : EmptyCollection (JsMap κ α) := ⟨empty⟩
instance : Inhabited (JsMap κ α) := ⟨empty⟩

def mapValues (m : JsMap κ α) (f : α → α) : JsMap κ α where
  entries := m.entries.map fun e => (e.1, f e.2)
  nodup := by
    have := m.nodup
    simpa [List.map_map, Function.comp_def] using this

def map {β : Type} (m : JsMap κ α) (f : α → β) : JsMap κ β where
  entries := m.entries.map fun e => (e.1, f e.2)
  nodup := by
    have := m.nodup
    simpa [List.map_map, Function.comp_def] using this

theorem values_map {β : Type} (m : JsMap κ α) (f : α → β) :
    (m.map f).values = m.values.map f := by
  simp [map, values]

theorem keys_map {β : Type} (m : JsMap κ α) (f : α → β) :
    (m.map f).entries.map Prod.fst = m.entries.map Prod.fst := by
  rw [map, List.map_map]
  rfl

theorem map_mapValues {β : Type} (m : JsMap κ α) {f : α → β} {g : α → α} {h : β → β}
    (hcomm : ∀ v, f (g v) = h (f v)) : (m.mapValues g).map f = (m.map f).mapValues h := by
  simp [map, mapValues, hcomm]

def keep (m : JsMap κ α) (p : κ → α → Bool) : JsMap κ α where
  entries := m.entries.filter fun e => p e.1 e.2
  nodup := m.nodup.sublist (List.filter_sublist.map Prod.fst)

variable [DecidableEq κ]

/-- `map.get(key)`. -/
def get? (m : JsMap κ α) (k : κ) : Option α := (m.entries.find? fun e => e.1 = k).map Prod.snd

theorem get?_eq_some {m : JsMap κ α} {k : κ} {v : α} : m.get? k = some v ↔ (k, v) ∈ m.entries := by
  unfold get?
  constructor
  · intro h
    obtain ⟨⟨l, w⟩, hfind, rfl⟩ := Option.map_eq_some_iff.mp h
    have hkey : l = k := by simpa using List.find?_some hfind
    exact hkey ▸ List.mem_of_find?_eq_some hfind
  · intro hmem
    have hsome : (m.entries.find? fun e => e.1 = k).isSome := by
      rw [List.find?_isSome]
      exact ⟨(k, v), hmem, by simp⟩
    obtain ⟨⟨l, w⟩, hfind⟩ := Option.isSome_iff_exists.mp hsome
    have hkey : l = k := by simpa using List.find?_some hfind
    subst hkey
    rw [hfind]
    have heq := List.inj_on_of_nodup_map m.nodup (List.mem_of_find?_eq_some hfind) hmem rfl
    rw [heq]
    rfl

theorem get?_eq_none {m : JsMap κ α} {k : κ} : m.get? k = none ↔ k ∉ m.entries.map Prod.fst := by
  constructor
  · intro h hmem
    obtain ⟨⟨l, v⟩, hentry, rfl⟩ := List.mem_map.mp hmem
    rw [get?_eq_some.mpr hentry] at h
    simp at h
  · intro h
    rw [Option.eq_none_iff_forall_ne_some]
    intro v hv
    exact h (List.mem_map.mpr ⟨(k, v), get?_eq_some.mp hv, rfl⟩)

def set (m : JsMap κ α) (k : κ) (v : α) : JsMap κ α :=
  if hk : k ∈ m.entries.map Prod.fst then
    ⟨m.entries.map fun e => if e.1 = k then (k, v) else e, by
      have hkeys : (m.entries.map fun e => if e.1 = k then (k, v) else e).map Prod.fst =
          m.entries.map Prod.fst := by
        rw [List.map_map]
        apply List.map_congr_left
        intro e _
        dsimp only [Function.comp]
        split
        · next h => exact h.symm
        · rfl
      rw [hkeys]
      exact m.nodup⟩
  else
    ⟨m.entries ++ [(k, v)], by
      rw [List.map_append, List.nodup_append]
      refine ⟨m.nodup, by simp, ?_⟩
      intro a ha b hb
      obtain rfl : b = k := by simpa using hb
      rintro rfl
      exact hk ha⟩

def delete (m : JsMap κ α) (k : κ) : JsMap κ α := m.keep fun l _ => l ≠ k

def modify (m : JsMap κ α) (k : κ) (f : α → α) : JsMap κ α where
  entries := m.entries.map fun e => (e.1, if e.1 = k then f e.2 else e.2)
  nodup := by
    have := m.nodup
    simpa [List.map_map, Function.comp_def] using this

@[simp] theorem get?_empty (k : κ) : (∅ : JsMap κ α).get? k = none := rfl

theorem eq_empty {m : JsMap κ α} (h : ∀ k, m.get? k = none) : m = ∅ := by
  obtain ⟨entries, hnodup⟩ := m
  cases entries with
  | nil => rfl
  | cons e entries => exact absurd (h e.1) (by simp [get?])

theorem get?_set (m : JsMap κ α) (k l : κ) (v : α) :
    (m.set k v).get? l = if l = k then some v else m.get? l := by
  have hnew : (m.set k v).get? k = some v := by
    rw [get?_eq_some, set]
    split
    · next hk =>
      obtain ⟨e, he, hkey⟩ := List.mem_map.mp hk
      exact List.mem_map.mpr ⟨e, he, if_pos hkey⟩
    · simp
  by_cases hlk : l = k
  · rw [if_pos hlk, hlk, hnew]
  · rw [if_neg hlk]
    apply Option.ext
    intro w
    rw [get?_eq_some, get?_eq_some, set]
    split
    · simp only [List.mem_map]
      constructor
      · rintro ⟨e, he, heq⟩
        split at heq
        · exact absurd (Prod.mk.inj heq).1.symm hlk
        · exact heq ▸ he
      · intro he
        exact ⟨(l, w), he, if_neg hlk⟩
    · simp [hlk]

theorem entries_set_of_not_mem {m : JsMap κ α} {k : κ} (h : k ∉ m.entries.map Prod.fst) (v : α) :
    (m.set k v).entries = m.entries ++ [(k, v)] := by
  rw [set, dif_neg h]

theorem delete_set_of_not_mem {m : JsMap κ α} {k : κ} (h : k ∉ m.entries.map Prod.fst) (v : α) :
    (m.set k v).delete k = m := by
  obtain ⟨entries, hnodup⟩ := m
  rw [mk.injEq]
  show (JsMap.set ⟨entries, hnodup⟩ k v).entries.filter _ = entries
  rw [entries_set_of_not_mem h, List.filter_append]
  have hkept : entries.filter (fun e => decide (e.1 ≠ k)) = entries := by
    rw [List.filter_eq_self]
    intro e he
    have hne : e.1 ≠ k := by
      rintro rfl
      exact h (List.mem_map_of_mem he)
    simp [hne]
  rw [hkept]
  simp

theorem get?_setAll (entries : List (κ × α))
    (hnodup : (entries.map Prod.fst).Nodup) (m : JsMap κ α)
    (k : κ) :
    (entries.foldl (fun m e => m.set e.1 e.2) m).get? k =
      ((entries.find? fun e => e.1 = k).map Prod.snd).or (m.get? k) := by
  induction entries generalizing m with
  | nil => rfl
  | cons e entries ih =>
    rw [List.map_cons, List.nodup_cons] at hnodup
    rw [List.foldl_cons, ih hnodup.2, get?_set, List.find?_cons]
    by_cases hk : e.1 = k
    · have hnone : entries.find? (fun e => e.1 = k) = none := by
        rw [List.find?_eq_none]
        intro e' he' heq
        exact hnodup.1 (List.mem_map.mpr ⟨e', he', by simpa [hk] using heq⟩)
      simp [hk, hnone]
    · simp [hk, Ne.symm hk]

theorem get?_mapValues (m : JsMap κ α) (f : α → α) (k : κ) :
    (m.mapValues f).get? k = (m.get? k).map f := by
  apply Option.ext
  intro v
  rw [get?_eq_some, Option.map_eq_some_iff]
  simp only [mapValues, List.mem_map, Prod.mk.injEq, Prod.exists, get?_eq_some]
  constructor
  · rintro ⟨l, w, hmem, rfl, rfl⟩
    exact ⟨w, hmem, rfl⟩
  · rintro ⟨w, hmem, rfl⟩
    exact ⟨k, w, hmem, rfl, rfl⟩

theorem get?_keep (m : JsMap κ α) (p : κ → α → Bool) (k : κ) :
    (m.keep p).get? k = (m.get? k).filter (p k) := by
  apply Option.ext
  intro v
  rw [get?_eq_some, Option.filter_eq_some_iff, get?_eq_some]
  simp [keep]

theorem get?_delete (m : JsMap κ α) (k l : κ) :
    (m.delete k).get? l = if l = k then none else m.get? l := by
  rw [delete, get?_keep]
  by_cases h : l = k
  · rw [if_pos h, Option.filter_eq_none_iff]
    simp [h]
  · rw [if_neg h]
    cases m.get? l with
    | none => rfl
    | some v => simp [h]

theorem get?_deleteAll (m : JsMap κ α) (ks : List κ) (l : κ) :
    (ks.foldl delete m).get? l = if l ∈ ks then none else m.get? l := by
  induction ks generalizing m with
  | nil => simp
  | cons k ks ih =>
    rw [List.foldl_cons, ih, get?_delete]
    by_cases hl : l ∈ ks
    · simp [hl]
    · by_cases hk : l = k <;> simp [hl, hk]

theorem get?_modify (m : JsMap κ α) (k l : κ) (f : α → α) :
    (m.modify k f).get? l = if l = k then (m.get? l).map f else m.get? l := by
  apply Option.ext
  intro v
  rw [get?_eq_some]
  simp only [modify, List.mem_map, Prod.mk.injEq, Prod.exists]
  by_cases h : l = k
  · rw [if_pos h, Option.map_eq_some_iff]
    simp only [get?_eq_some]
    constructor
    · rintro ⟨l', w, hmem, rfl, rfl⟩
      exact ⟨w, hmem, (if_pos h).symm⟩
    · rintro ⟨w, hmem, rfl⟩
      exact ⟨l, w, hmem, rfl, if_pos h⟩
  · rw [if_neg h, get?_eq_some]
    constructor
    · rintro ⟨l', w, hmem, rfl, rfl⟩
      rw [if_neg h]
      exact hmem
    · intro hmem
      exact ⟨l, v, hmem, rfl, if_neg h⟩

theorem size_le {m m' : JsMap κ α} (h : ∀ k v, m.get? k = some v → ∃ w, m'.get? k = some w) :
    m.size ≤ m'.size := by
  have hkeys : m.entries.map Prod.fst ⊆ m'.entries.map Prod.fst := by
    intro k hk
    obtain ⟨e, he, rfl⟩ := List.mem_map.mp hk
    obtain ⟨w, hw⟩ := h e.1 e.2 (get?_eq_some.mpr he)
    exact List.mem_map.mpr ⟨_, get?_eq_some.mp hw, rfl⟩
  simpa [size] using m.nodup.length_le_of_subset hkeys

theorem size_set_le (m : JsMap κ α) (k : κ) (v : α) : (m.set k v).size ≤ m.size + 1 := by
  unfold size set
  split <;> simp

/-! ## Values of another type -/

section
variable {β : Type} (m : JsMap κ α) (f : α → β)

theorem get?_map (k : κ) : (m.map f).get? k = (m.get? k).map f := by
  rw [get?, get?, map, List.find?_map, Option.map_map, Option.map_map]
  rfl

theorem map_set (k : κ) (v : α) : (m.set k v).map f = (m.map f).set k (f v) := by
  have hentries : ((m.set k v).map f).entries = ((m.map f).set k (f v)).entries := by
    by_cases hk : k ∈ m.entries.map Prod.fst
    · have hk' : k ∈ (m.map f).entries.map Prod.fst := by rwa [keys_map]
      rw [set, dif_pos hk, set, dif_pos hk']
      simp only [map, List.map_map]
      refine List.map_congr_left fun e _ => ?_
      simp only [Function.comp_apply]
      split <;> rfl
    · have hk' : k ∉ (m.map f).entries.map Prod.fst := by rwa [keys_map]
      rw [set, dif_neg hk, set, dif_neg hk']
      simp only [map, List.map_append, List.map_cons, List.map_nil]
  cases h : (m.set k v).map f
  cases h' : (m.map f).set k (f v)
  rw [h, h'] at hentries
  simpa using hentries

end

theorem mem_values {m : JsMap κ α} {v : α} : v ∈ m.values ↔ ∃ k, m.get? k = some v := by
  simp only [values, List.mem_map, Prod.exists, exists_eq_right, get?_eq_some]

end JsMap

end Daloy
