import Mathlib.Algebra.Order.Ring.Int
import Mathlib.Data.List.Basic

/-! # Interleaved logs

Nothing here mentions a program. Several parties log side by side, each in its own order; a counter
is the sum of what the entries add to it.

* `own r steps`: the entries of one party.
* `total_own_le`: where no party counts negatively, one party's share is no more than the counter.
-/

namespace Daloy
set_option autoImplicit false

variable {ε : Type}

def total (δ : ε → ℤ) (entries : List ε) : ℤ := (entries.map δ).sum

def own (r : ℕ) (steps : List (ℕ × ε)) : List ε :=
  (steps.filter fun step => step.1 == r).map Prod.snd

def Interleaving (logs : ℕ → List ε) (steps : List (ℕ × ε)) : Prop :=
  ∀ r, ∃ later, logs r = own r steps ++ later

@[simp] theorem total_cons (δ : ε → ℤ) (e : ε) (entries : List ε) :
    total δ (e :: entries) = δ e + total δ entries := by
  rw [total, total, List.map_cons, List.sum_cons]

theorem own_cons (r : ℕ) (step : ℕ × ε) (steps : List (ℕ × ε)) :
    own r (step :: steps) = if step.1 = r then step.2 :: own r steps else own r steps := by
  rw [own, own, List.filter_cons]
  by_cases h : step.1 = r
  · rw [if_pos (by simpa using h), if_pos h, List.map_cons]
  · rw [if_neg (by simpa using h), if_neg h]

theorem total_split (δ : ε → ℤ) (r : ℕ) (steps : List (ℕ × ε)) :
    total δ (steps.map Prod.snd) = total δ (own r steps) +
      total δ ((steps.filter fun step => step.1 ≠ r).map Prod.snd) := by
  induction steps with
  | nil => rfl
  | cons step steps ih =>
    rw [List.map_cons, total_cons, ih, own_cons, List.filter_cons]
    by_cases h : step.1 = r
    · rw [if_pos h, if_neg (by simpa using h), total_cons]
      omega
    · rw [if_neg h, if_pos (by simpa using h), List.map_cons, total_cons]
      omega

theorem own_others (r r' : ℕ) (steps : List (ℕ × ε)) :
    own r' (steps.filter fun step => step.1 ≠ r) = if r' = r then [] else own r' steps := by
  induction steps with
  | nil =>
    split <;> rfl
  | cons step steps ih =>
    rw [List.filter_cons, own_cons]
    by_cases h : step.1 = r
    · rw [if_neg (by simpa using h), ih]
      split
      · rfl
      · next hne => rw [if_neg (by rw [h]; exact fun heq => hne heq.symm)]
    · rw [if_pos (by simpa using h), own_cons, ih]
      by_cases heq : r' = r
      · rw [if_pos heq, if_pos heq, if_neg (by rw [heq]; exact h)]
      · rw [if_neg heq, if_neg heq]

theorem total_nonneg {δ : ε → ℤ} {steps : List (ℕ × ε)} (h : ∀ r, 0 ≤ total δ (own r steps)) :
    0 ≤ total δ (steps.map Prod.snd) := by
  induction hn : steps.length using Nat.strong_induction_on generalizing steps with
  | _ n ih =>
    cases steps with
    | nil => exact Int.le_refl 0
    | cons step steps =>
      rw [total_split δ step.1]
      have hlt : ((step :: steps).filter fun s => s.1 ≠ step.1).length < n := by
        rw [← hn, List.filter_cons_of_neg (by simp), List.length_cons]
        exact Nat.lt_succ_of_le (List.length_filter_le _ _)
      have hothers : 0 ≤ total δ (((step :: steps).filter fun s => s.1 ≠ step.1).map
          Prod.snd) := by
        refine ih _ hlt ?_ rfl
        intro r
        rw [own_others]
        split
        · exact Int.le_refl 0
        · exact h r
      have := h step.1
      omega

theorem total_own_le {δ : ε → ℤ} {steps : List (ℕ × ε)} (h : ∀ r, 0 ≤ total δ (own r steps))
    (r : ℕ) : total δ (own r steps) ≤ total δ (steps.map Prod.snd) := by
  rw [total_split δ r]
  have hothers : 0 ≤ total δ ((steps.filter fun step => step.1 ≠ r).map Prod.snd) := by
    apply total_nonneg
    intro r'
    rw [own_others]
    split
    · exact Int.le_refl 0
    · exact h r'
  omega

end Daloy
