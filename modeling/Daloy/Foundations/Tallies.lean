import Daloy.Foundations.JsMap
import Mathlib.Data.List.Dedup
import Mathlib.Data.List.Induction
import Mathlib.Data.List.Perm.Basic

/-! # Tallies by key

Nothing here mentions a program. Changes come in one after the other, each for one label. A tally
keeps one state for every *key* of a label; what it is for is one state for every *label*.

* `tally`: the states by key, each with the label it was opened for.
* `series`: the states by label.
* `values_tally_perm`: they are the same where different labels have different keys.
* `length_values_tally_lt`: where two labels share a key, the tally has fewer states than there are
  labels.
-/

namespace Daloy.Tallies
set_option autoImplicit false

/-- What a series is for, and where it stands. -/
structure Series (ι σ : Type) where
  labels : ι
  state : σ
  deriving DecidableEq

section
variable {ι κ α σ : Type} (apply : Option σ → α → σ)

/-- The state after some changes, `none` before the first. -/
def outcome (changes : List α) : Option σ := changes.foldl (fun s a => some (apply s a)) none

theorem outcome_append (changes : List α) (a : α) :
    outcome apply (changes ++ [a]) = some (apply (outcome apply changes) a) := by
  rw [outcome, List.foldl_append]
  rfl

theorem outcome_ne_none {changes : List α} (h : changes ≠ []) : outcome apply changes ≠ none := by
  obtain ⟨front, a, rfl⟩ := List.eq_nil_or_concat changes |>.resolve_left h
  rw [List.concat_eq_append, outcome_append]
  exact Option.some_ne_none _

def changesOf (p : ι → Bool) (history : List (ι × α)) : List α :=
  (history.filter fun e => p e.1).map Prod.snd

theorem changesOf_append (p : ι → Bool) (history : List (ι × α)) (e : ι × α) :
    changesOf p (history ++ [e]) = changesOf p history ++ if p e.1 then [e.2] else [] := by
  rw [changesOf, List.filter_append, List.map_append]
  cases h : p e.1 <;> simp [changesOf, h]

theorem changesOf_congr {p q : ι → Bool} {history : List (ι × α)}
    (h : ∀ e ∈ history, p e.1 = q e.1) : changesOf p history = changesOf q history := by
  rw [changesOf, changesOf, List.filter_congr h]

theorem changesOf_ne_nil {p : ι → Bool} {history : List (ι × α)} {e : ι × α} (h : e ∈ history)
    (hp : p e.1 = true) : changesOf p history ≠ [] := by
  rw [changesOf, Ne, List.map_eq_nil_iff]
  exact List.ne_nil_of_mem (List.mem_filter.mpr ⟨h, hp⟩)

/-! ## By key -/

section
variable (key : ι → κ) [DecidableEq κ]

/-- A change is applied to the state under the key of its label, which it may open. -/
def record (m : JsMap κ (Series ι σ)) (e : ι × α) : JsMap κ (Series ι σ) :=
  match m.get? (key e.1) with
  | some _ => m.modify (key e.1) fun s => { s with state := apply (some s.state) e.2 }
  | none => m.set (key e.1) ⟨e.1, apply none e.2⟩

def tally (history : List (ι × α)) : JsMap κ (Series ι σ) := history.foldl (record apply key) ∅

variable {apply key}

theorem tally_append (history : List (ι × α)) (e : ι × α) :
    tally apply key (history ++ [e]) = record apply key (tally apply key history) e :=
  List.foldl_append

theorem get?_tally (history : List (ι × α)) (k : κ) :
    (tally apply key history).get? k =
      (history.find? fun e => key e.1 = k).bind fun e =>
        (outcome apply (changesOf (fun i => key i = k) history)).map (Series.mk e.1) := by
  induction history using List.reverseRecOn with
  | nil => rfl
  | append_singleton history e ih =>
    rw [tally_append, record, List.find?_append, changesOf_append]
    by_cases hk : key e.1 = k
    · subst hk
      rw [ih, List.find?_cons_of_pos (by simp), if_pos (by simp), outcome_append]
      cases hfind : history.find? fun f => key f.1 = key e.1 with
      | none =>
        have hnone : changesOf (fun i => decide (key i = key e.1)) history = [] := by
          rw [changesOf, List.map_eq_nil_iff, List.filter_eq_nil_iff]
          exact fun f hf => List.find?_eq_none.mp hfind f hf
        rw [hnone]
        simp [JsMap.get?_set, outcome]
      | some f =>
        have hkey : key f.1 = key e.1 := by simpa using List.find?_some hfind
        have hsome : outcome apply (changesOf (fun i => key i = key e.1) history) ≠ none :=
          outcome_ne_none apply
            (changesOf_ne_nil (List.mem_of_find?_eq_some hfind) (decide_eq_true hkey))
        obtain ⟨s, hs⟩ := Option.ne_none_iff_exists'.mp hsome
        rw [hs]
        simp [JsMap.get?_modify, ih, hfind, hs]
    · have hne : k ≠ key e.1 := fun h => hk h.symm
      rw [List.find?_cons_of_neg (by simpa using hk), List.find?_nil, Option.or_none,
        if_neg (by simpa using hk), List.append_nil, ← ih]
      split
      · rw [JsMap.get?_modify, if_neg hne]
      · rw [JsMap.get?_set, if_neg hne]

theorem key_of_mem {history : List (ι × α)} {k : κ} {s : Series ι σ}
    (h : (k, s) ∈ (tally apply key history).entries) :
    key s.labels = k ∧ s.labels ∈ history.map Prod.fst := by
  have hget := JsMap.get?_eq_some.mpr h
  rw [get?_tally] at hget
  obtain ⟨e, hfind, hs⟩ := Option.bind_eq_some_iff.mp hget
  obtain ⟨state, -, rfl⟩ := Option.map_eq_some_iff.mp hs
  exact ⟨by simpa using List.find?_some hfind,
    List.mem_map_of_mem (List.mem_of_find?_eq_some hfind)⟩

theorem mem_keys_tally {history : List (ι × α)} {k : κ} :
    k ∈ (tally apply key history).entries.map Prod.fst ↔
      k ∈ (history.map Prod.fst).map key := by
  rw [← not_iff_not, ← JsMap.get?_eq_none, get?_tally]
  constructor
  · intro h hmem
    obtain ⟨i, hi, rfl⟩ := List.mem_map.mp hmem
    obtain ⟨e, he, rfl⟩ := List.mem_map.mp hi
    have hsome : (history.find? fun f => key f.1 = key e.1).isSome = true := by
      rw [List.find?_isSome]
      exact ⟨e, he, by simp⟩
    obtain ⟨f, hf⟩ := Option.isSome_iff_exists.mp hsome
    rw [hf, Option.bind_some, Option.map_eq_none_iff] at h
    exact outcome_ne_none apply (changesOf_ne_nil he (by simp)) h
  · intro h
    have hnone : (history.find? fun e => key e.1 = k) = none := by
      rw [List.find?_eq_none]
      intro e he heq
      exact h (List.mem_map.mpr ⟨e.1, List.mem_map_of_mem he, by simpa using heq⟩)
    rw [hnone]
    rfl

end

/-! ## By label -/

section
variable [DecidableEq ι]

def labelsOf (history : List (ι × α)) : List ι := (history.map Prod.fst).dedup

def series (history : List (ι × α)) : List (Series ι σ) :=
  (labelsOf history).filterMap fun i =>
    (outcome apply (changesOf (fun j => j = i) history)).map (Series.mk i)

variable (key : ι → κ) [DecidableEq κ]

theorem mem_labelsOf {history : List (ι × α)} {i : ι} :
    i ∈ labelsOf history ↔ i ∈ history.map Prod.fst := List.mem_dedup

theorem labels_series (history : List (ι × α)) :
    (series apply history).map Series.labels = labelsOf history := by
  rw [series, List.map_filterMap]
  have hsome : ∀ i ∈ labelsOf history,
      ((outcome apply (changesOf (fun j => j = i) history)).map (Series.mk i)).map
        Series.labels = some i := by
    intro i hi
    obtain ⟨e, he, rfl⟩ := List.mem_map.mp (mem_labelsOf.mp hi)
    obtain ⟨s, hs⟩ := Option.ne_none_iff_exists'.mp
      (outcome_ne_none apply (changesOf_ne_nil (p := fun j => j = e.1) he (by simp)))
    rw [hs]
    rfl
  rw [List.filterMap_congr hsome, List.filterMap_some]

theorem length_series (history : List (ι × α)) :
    (series apply history).length = (labelsOf history).length := by
  rw [← labels_series apply history, List.length_map]

variable {apply key}

theorem mem_series {history : List (ι × α)} {s : Series ι σ} :
    s ∈ series apply history ↔ s.labels ∈ labelsOf history ∧
      outcome apply (changesOf (fun j => j = s.labels) history) = some s.state := by
  rw [series, List.mem_filterMap]
  constructor
  · rintro ⟨i, hi, hs⟩
    obtain ⟨state, houtcome, rfl⟩ := Option.map_eq_some_iff.mp hs
    exact ⟨hi, houtcome⟩
  · rintro ⟨hi, houtcome⟩
    exact ⟨s.labels, hi, by rw [houtcome]; rfl⟩

theorem series_map {τ : Type} {apply' : Option τ → α → τ} {f : σ → τ}
    (h : ∀ changes, outcome apply' changes = (outcome apply changes).map f)
    (history : List (ι × α)) :
    series apply' history = (series apply history).map fun s => ⟨s.labels, f s.state⟩ := by
  rw [series, series, List.map_filterMap]
  refine List.filterMap_congr fun i _ => ?_
  rw [h, Option.map_map, Option.map_map]
  rfl

def KeysApart (key : ι → κ) (history : List (ι × α)) : Prop :=
  ∀ i ∈ history.map Prod.fst, ∀ j ∈ history.map Prod.fst, key i = key j → i = j

variable (apply key)

theorem length_values_tally (history : List (ι × α)) :
    (tally apply key history).values.length = ((labelsOf history).map key).dedup.length := by
  have hperm : ((tally apply key history).entries.map Prod.fst).Perm
      ((labelsOf history).map key).dedup := by
    refine (List.perm_ext_iff_of_nodup (tally apply key history).nodup (List.nodup_dedup _)).mpr ?_
    intro k
    rw [mem_keys_tally, List.mem_dedup, List.mem_map, List.mem_map]
    simp only [mem_labelsOf]
  rw [← hperm.length_eq, JsMap.values, List.length_map, List.length_map]

theorem length_values_tally_le (history : List (ι × α)) :
    (tally apply key history).values.length ≤ (labelsOf history).length := by
  rw [length_values_tally, ← List.length_map (f := key)]
  exact (List.dedup_sublist _).length_le

theorem length_values_tally_lt {history : List (ι × α)} (h : ¬ KeysApart key history) :
    (tally apply key history).values.length < (labelsOf history).length := by
  refine Nat.lt_of_le_of_ne (length_values_tally_le apply key history) fun heq => h ?_
  rw [length_values_tally, ← List.length_map (f := key)] at heq
  have hnodup : ((labelsOf history).map key).Nodup := by
    rw [← List.dedup_eq_self]
    exact (List.dedup_sublist _).eq_of_length heq
  intro i hi j hj hkey
  exact List.inj_on_of_nodup_map hnodup (mem_labelsOf.mpr hi) (mem_labelsOf.mpr hj) hkey

variable {apply key}

theorem values_tally_perm {history : List (ι × α)} (h : KeysApart key history) :
    (tally apply key history).values.Perm (series apply history) := by
  have hvalues : (tally apply key history).values.Nodup := by
    refine List.Nodup.of_map (fun s => key s.labels) ?_
    have hkeys : (tally apply key history).values.map (fun s => key s.labels) =
        (tally apply key history).entries.map Prod.fst := by
      rw [JsMap.values, List.map_map]
      exact List.map_congr_left fun e he => (key_of_mem he).1
    rw [hkeys]
    exact (tally apply key history).nodup
  have hseries : (series apply history).Nodup := by
    refine List.Nodup.of_map Series.labels ?_
    rw [labels_series]
    exact List.nodup_dedup _
  refine (List.perm_ext_iff_of_nodup hvalues hseries).mpr fun s => ?_
  have hsame : ∀ i ∈ history.map Prod.fst, changesOf (fun j => key j = key i) history =
      changesOf (fun j => j = i) history := by
    intro i hi
    refine changesOf_congr fun e he => ?_
    rw [decide_eq_decide]
    exact ⟨fun hkey => h _ (List.mem_map_of_mem he) _ hi hkey, fun heq => by rw [heq]⟩
  rw [JsMap.mem_values, mem_series, mem_labelsOf]
  constructor
  · rintro ⟨k, hget⟩
    obtain ⟨rfl, hmem⟩ := key_of_mem (JsMap.get?_eq_some.mp hget)
    rw [get?_tally] at hget
    obtain ⟨e, -, hs⟩ := Option.bind_eq_some_iff.mp hget
    obtain ⟨state, houtcome, rfl⟩ := Option.map_eq_some_iff.mp hs
    exact ⟨hmem, hsame _ hmem ▸ houtcome⟩
  · rintro ⟨hmem, houtcome⟩
    refine ⟨key s.labels, ?_⟩
    obtain ⟨f, hf, heq⟩ := List.mem_map.mp hmem
    have hsome : (history.find? fun e => key e.1 = key s.labels).isSome = true := by
      rw [List.find?_isSome]
      exact ⟨f, hf, by simp [heq]⟩
    obtain ⟨e, hfind⟩ := Option.isSome_iff_exists.mp hsome
    have hlabels : e.1 = s.labels :=
      h _ (List.mem_map_of_mem (List.mem_of_find?_eq_some hfind)) _ hmem
        (by simpa using List.find?_some hfind)
    rw [get?_tally, hfind, Option.bind_some, hsame _ hmem, houtcome, hlabels]
    rfl

end

end

end Daloy.Tallies
