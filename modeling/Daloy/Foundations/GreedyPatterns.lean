import Mathlib.Data.List.Basic
import Mathlib.Tactic.Common

/-! # Greedy captures between literals

The anchored patterns `(C+) l₁ (C+) l₂ … (C+) lₙ`, for a class `C` of symbols and literal texts.
Nothing here mentions a program.

* `plus`: one or more symbols of the class, the longest first, before a continuation.
* `exec`: the captures of a pattern, as backtracking finds them.
* `Splits`: what captures are, apart from any search.
* `exec_splits`: the captures that are found are a split.
-/

namespace Daloy.GreedyPatterns
set_option autoImplicit false

variable {α β : Type} [DecidableEq α] (stops : α → Bool)

/-! ## Backtracking -/

/-- One or more symbols that do not stop, before what the continuation reads: another symbol is
tried first. -/
def plus (k : List α → Option β) : List α → Option (List α × β)
  | [] => none
  | u :: rest =>
    if stops u then none
    else
      match plus k rest with
      | some (c, b) => some (u :: c, b)
      | none => (k rest).map fun b => ([u], b)

def many (k : List α → Option β) (s : List α) : Option (List α × β) :=
  match plus stops k s with
  | some e => some e
  | none => (k s).map fun b => ([], b)

def behind (literal : List α) (k : List α → Option β) (s : List α) : Option β :=
  if literal.isPrefixOf s then k (s.drop literal.length) else none

def exec : List (List α) → List α → Option (List (List α))
  | [], s => if s = [] then some [] else none
  | literal :: literals, s =>
    (plus stops (behind literal (exec literals)) s).map fun e => e.1 :: e.2

def Splits : List (List α) → List (List α) → List α → Prop
  | [], [], s => s = []
  | literal :: literals, c :: captures, s =>
    c ≠ [] ∧ (∀ u ∈ c, stops u = false) ∧
      ∃ rest, s = c ++ (literal ++ rest) ∧ Splits literals captures rest
  | _, _, _ => False

variable {stops}

omit [DecidableEq α] in
theorem plus_cons (k : List α → Option β) (u : α) (rest : List α) :
    plus stops k (u :: rest) =
      if stops u then none else (many stops k rest).map fun e => (u :: e.1, e.2) := by
  rw [plus, many]
  split
  · rfl
  · cases plus stops k rest with
    | some e => rfl
    | none =>
      cases k rest with
      | some b => rfl
      | none => rfl

omit [DecidableEq α] in
theorem many_isSome (k : List α → Option β) (s : List α) :
    (many stops k s).isSome = ((plus stops k s).isSome || (k s).isSome) := by
  rw [many]
  cases plus stops k s with
  | some e => rfl
  | none => simp

omit [DecidableEq α] in
theorem plus_eq_some {k : List α → Option β} {s c : List α} {b : β}
    (h : plus stops k s = some (c, b)) :
    c ≠ [] ∧ (∀ u ∈ c, stops u = false) ∧ ∃ rest, s = c ++ rest ∧ k rest = some b := by
  induction s generalizing c b with
  | nil => cases h
  | cons u s ih =>
    rw [plus] at h
    by_cases hu : stops u = true
    · rw [if_pos hu] at h
      cases h
    rw [if_neg hu] at h
    rw [Bool.not_eq_true] at hu
    cases hmore : plus stops k s with
    | some e =>
      rw [hmore] at h
      obtain ⟨rfl, rfl⟩ := Prod.mk.inj (Option.some.inj h)
      obtain ⟨-, hall, rest, rfl, hrest⟩ := ih hmore
      exact ⟨by simp, by simpa [hu] using hall, rest, rfl, hrest⟩
    | none =>
      rw [hmore] at h
      obtain ⟨b', hb, heq⟩ := Option.map_eq_some_iff.mp h
      obtain ⟨rfl, rfl⟩ := Prod.mk.inj heq
      exact ⟨by simp, by simpa using hu, s, rfl, hb⟩

theorem behind_eq_some {literal s : List α} {k : List α → Option β} {b : β} :
    behind literal k s = some b ↔ ∃ rest, s = literal ++ rest ∧ k rest = some b := by
  rw [behind]
  constructor
  · intro h
    split at h
    · rename_i hprefix
      obtain ⟨rest, rfl⟩ := List.isPrefixOf_iff_prefix.mp hprefix
      rw [List.drop_left] at h
      exact ⟨rest, rfl, h⟩
    · cases h
  · rintro ⟨rest, rfl, hrest⟩
    rw [if_pos (List.isPrefixOf_iff_prefix.mpr (List.prefix_append _ _)), List.drop_left, hrest]

/-! ## Splits -/

theorem exec_splits {literals captures : List (List α)} {s : List α}
    (h : exec stops literals s = some captures) : Splits stops literals captures s := by
  induction literals generalizing captures s with
  | nil =>
    rw [exec] at h
    split at h
    · rename_i hs
      rw [← Option.some.inj h]
      exact hs
    · cases h
  | cons literal literals ih =>
    rw [exec] at h
    obtain ⟨⟨c, cs⟩, hplus, rfl⟩ := Option.map_eq_some_iff.mp h
    obtain ⟨hne, hall, front, rfl, hbehind⟩ := plus_eq_some hplus
    obtain ⟨rest, rfl, hrest⟩ := behind_eq_some.mp hbehind
    exact ⟨hne, hall, rest, rfl, ih hrest⟩

end Daloy.GreedyPatterns
