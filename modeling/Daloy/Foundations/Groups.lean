import Daloy.Foundations.JsMap
import Mathlib.Data.List.Induction
import Mathlib.Data.List.Perm.Basic

/-! # Groups by name

Nothing here mentions a program. `group` puts the items of a list under their names, in a map from
names to lists. Every item is in one group, that of its name.
-/

namespace Daloy.JsMap
set_option autoImplicit false

variable {α κ : Type} [DecidableEq κ]

def push (name : α → κ) (m : JsMap κ (List α)) (x : α) : JsMap κ (List α) :=
  match m.get? (name x) with
  | none => m.set (name x) [x]
  | some _ => m.modify (name x) fun items => items ++ [x]

def group (name : α → κ) (xs : List α) : JsMap κ (List α) := xs.foldl (push name) ∅

variable (name : α → κ)

theorem group_append (xs : List α) (x : α) :
    group name (xs ++ [x]) = push name (group name xs) x := by
  rw [group, List.foldl_append]
  rfl

theorem get?_group (xs : List α) (k : κ) :
    (group name xs).get? k =
      if xs.filter (fun x => name x = k) = [] then none
      else some (xs.filter fun x => name x = k) := by
  induction xs using List.reverseRecOn with
  | nil => rfl
  | append_singleton xs x ih =>
    rw [group_append, push, List.filter_append]
    by_cases hk : name x = k
    · subst hk
      rw [ih]
      by_cases hempty : xs.filter (fun y => name y = name x) = []
      · simp [hempty, get?_set]
      · simp [hempty, get?_modify, ih]
    · have hne : k ≠ name x := fun h => hk h.symm
      have hnone : [x].filter (fun y => name y = k) = [] := by
        simp [hk]
      rw [hnone, List.append_nil, ← ih]
      split
      · rw [get?_set, if_neg hne]
      · rw [get?_modify, if_neg hne]

theorem mem_group {xs : List α} {k : κ} {items : List α} (h : (k, items) ∈ (group name xs).entries) :
    items ≠ [] ∧ ∀ x ∈ items, name x = k := by
  have hget := get?_eq_some.mpr h
  rw [get?_group] at hget
  split at hget
  · simp at hget
  · rename_i hne
    obtain rfl := Option.some.inj hget
    exact ⟨hne, fun x hx => by simpa using (List.mem_filter.mp hx).2⟩

theorem flatten_modify {entries : List (κ × List α)} (hnodup : (entries.map Prod.fst).Nodup) {k : κ}
    (hmem : k ∈ entries.map Prod.fst) (x : α) :
    ((entries.map fun e => (e.1, if e.1 = k then e.2 ++ [x] else e.2)).map Prod.snd).flatten.Perm
      ((entries.map Prod.snd).flatten ++ [x]) := by
  induction entries with
  | nil => simp at hmem
  | cons e entries ih =>
    rw [List.map_cons, List.nodup_cons] at hnodup
    obtain ⟨hnot, hrest⟩ := hnodup
    simp only [List.map_cons, List.flatten_cons]
    by_cases hk : e.1 = k
    · have hsame : (entries.map fun e => (e.1, if e.1 = k then e.2 ++ [x] else e.2)) = entries := by
        refine (List.map_congr_left fun other hother => ?_).trans (List.map_id _)
        have hne : other.1 ≠ k := by
          intro heq
          exact hnot (by rw [hk, ← heq]; exact List.mem_map_of_mem hother)
        rw [if_neg hne]
        rfl
      rw [if_pos hk, hsame, List.append_assoc, List.append_assoc]
      exact List.Perm.append_left _ List.perm_append_comm
    · have hmem' : k ∈ entries.map Prod.fst := by
        obtain heq | hmem' := List.mem_cons.mp hmem
        · exact absurd heq.symm hk
        · exact hmem'
      rw [if_neg hk, List.append_assoc]
      exact List.Perm.append_left _ (ih hrest hmem')

theorem flatten_group (xs : List α) : (group name xs).values.flatten.Perm xs := by
  induction xs using List.reverseRecOn with
  | nil => rfl
  | append_singleton xs x ih =>
    rw [group_append]
    refine List.Perm.trans ?_ (ih.append_right [x])
    rw [push]
    cases hget : (group name xs).get? (name x) with
    | none =>
      dsimp only
      rw [values, entries_set_of_not_mem (get?_eq_none.mp hget), List.map_append,
        List.flatten_append]
      simp [values]
    | some items =>
      have hmem : name x ∈ (group name xs).entries.map Prod.fst :=
        List.mem_map_of_mem (f := Prod.fst) (get?_eq_some.mp hget)
      exact flatten_modify (group name xs).nodup hmem x

theorem flatMap_group {β : Type} (xs : List α) {f : κ × List α → α → β} {g : α → β}
    (h : ∀ e ∈ (group name xs).entries, ∀ x ∈ e.2, f e x = g x) :
    ((group name xs).entries.flatMap fun e => e.2.map (f e)).Perm (xs.map g) := by
  have hsame : ((group name xs).entries.flatMap fun e => e.2.map (f e)) =
      ((group name xs).values.flatten).map g := by
    rw [List.map_flatten, values, List.map_map, List.flatMap]
    congr 1
    exact List.map_congr_left fun e he => List.map_congr_left fun x hx => h e he x hx
  rw [hsame]
  exact (flatten_group name xs).map g

end Daloy.JsMap
