import Mathlib.Tactic.Common

/-! # Runs of machines

Nothing here mentions a program.

* `feed step s is`: a machine that answers every input, fed a list of inputs.
* `run step s ls`: a guarded machine (`step s l = none` when the label `l` is not enabled), run
  along a list of labels.
* `feed_invariant`, `feed_history_invariant`, `run_invariant`: what a step preserves, a run
  preserves. The second reads the calls and answers so far; the guarded form carries a condition on
  the steps taken (`AllSteps`).
-/

namespace Daloy.Runs
set_option autoImplicit false

theorem getElem?_concat {α : Type} {l : List α} {a b : α} {n : ℕ} :
    (l ++ [a])[n]? = some b ↔ l[n]? = some b ∨ (n = l.length ∧ b = a) := by
  rcases Nat.lt_trichotomy n l.length with hlt | rfl | hgt
  · rw [List.getElem?_append_left hlt]
    simp [Nat.ne_of_lt hlt]
  · simp [eq_comm]
  · have hge : l.length ≤ n := Nat.le_of_lt hgt
    rw [List.getElem?_append_right hge, List.getElem?_eq_none (by simp; omega)]
    simp [Nat.ne_of_gt hgt, List.getElem?_eq_none hge]

variable {σ ι ω : Type}

/-! ## Machines that answer every input -/

def feed (step : σ → ι → σ × ω) : σ → List ι → σ × List ω
  | s, [] => (s, [])
  | s, i :: is => ((feed step (step s i).1 is).1, (step s i).2 :: (feed step (step s i).1 is).2)

@[simp] theorem feed_nil (step : σ → ι → σ × ω) (s : σ) : feed step s [] = (s, []) := rfl

theorem feed_cons (step : σ → ι → σ × ω) (s : σ) (i : ι) (is : List ι) :
    feed step s (i :: is) =
      ((feed step (step s i).1 is).1, (step s i).2 :: (feed step (step s i).1 is).2) := rfl

theorem feed_append (step : σ → ι → σ × ω) (s : σ) (is js : List ι) :
    feed step s (is ++ js) =
      ((feed step (feed step s is).1 js).1,
        (feed step s is).2 ++ (feed step (feed step s is).1 js).2) := by
  induction is generalizing s with
  | nil => rfl
  | cons i is ih => simp only [List.cons_append, feed_cons, ih]

theorem feed_invariant {step : σ → ι → σ × ω} {Inv : σ → Prop}
    (hstep : ∀ s i, Inv s → Inv (step s i).1) {s : σ} (hs : Inv s) (is : List ι) :
    Inv (feed step s is).1 := by
  induction is generalizing s with
  | nil => exact hs
  | cons i is ih => exact ih (hstep s i hs)

theorem feed_history_invariant {step : σ → ι → σ × ω} {Inv : σ → List (ι × ω) → Prop}
    (hstep : ∀ s i history, Inv s history → Inv (step s i).1 (history ++ [(i, (step s i).2)]))
    {s : σ} {history : List (ι × ω)} (hs : Inv s history) (is : List ι) :
    Inv (feed step s is).1 (history ++ is.zip (feed step s is).2) := by
  induction is generalizing s history with
  | nil => simpa using hs
  | cons i is ih =>
    have h := ih (hstep s i history hs)
    rw [List.append_assoc] at h
    exact h

/-! ## Guarded machines -/

/-- The state after the labels, or `none` when one of them is not enabled where it stands. -/
def run (step : σ → ι → Option σ) : σ → List ι → Option σ
  | s, [] => some s
  | s, l :: ls => (step s l).bind fun s' => run step s' ls

/-- Every step of the run, taken from the state before it, meets `good`. -/
def AllSteps (step : σ → ι → Option σ) (good : σ → ι → Prop) : σ → List ι → Prop
  | _, [] => True
  | s, l :: ls => good s l ∧ ∀ s', step s l = some s' → AllSteps step good s' ls

def decidableNext (step : σ → ι → Option σ) {P : σ → Prop} (s : σ) (l : ι)
    (h : ∀ s', Decidable (P s')) : Decidable (∀ s', step s l = some s' → P s') :=
  match hs : step s l with
  | none => .isTrue (by simp)
  | some t => @decidable_of_iff _ (P t) (by simp) (h t)

instance decidableAllSteps (step : σ → ι → Option σ) (good : σ → ι → Prop)
    [∀ s l, Decidable (good s l)] : ∀ s ls, Decidable (AllSteps step good s ls)
  | _, [] => .isTrue trivial
  | s, l :: ls =>
    have := decidableNext step s l fun s' => decidableAllSteps step good s' ls
    inferInstanceAs (Decidable (_ ∧ _))

@[simp] theorem run_nil (step : σ → ι → Option σ) (s : σ) : run step s [] = some s := rfl

theorem run_cons_eq_some {step : σ → ι → Option σ} {s t : σ} {l : ι} {ls : List ι} :
    run step s (l :: ls) = some t ↔ ∃ s', step s l = some s' ∧ run step s' ls = some t := by
  simp only [run, Option.bind_eq_some_iff]

theorem run_append (step : σ → ι → Option σ) (s : σ) (ls ls' : List ι) :
    run step s (ls ++ ls') = (run step s ls).bind fun t => run step t ls' := by
  induction ls generalizing s with
  | nil => rfl
  | cons l ls ih =>
    simp only [List.cons_append, run]
    cases step s l with
    | none => rfl
    | some t => exact ih t

theorem run_invariant {step : σ → ι → Option σ} {good : σ → ι → Prop} {Inv : σ → Prop}
    (hstep : ∀ s l s', good s l → Inv s → step s l = some s' → Inv s')
    {s t : σ} {ls : List ι} (hs : Inv s) (hgood : AllSteps step good s ls)
    (hrun : run step s ls = some t) : Inv t := by
  induction ls generalizing s with
  | nil =>
    obtain rfl : s = t := by simpa using hrun
    exact hs
  | cons l ls ih =>
    obtain ⟨s', hs', hrest⟩ := run_cons_eq_some.mp hrun
    exact ih (hstep s l s' hgood.1 hs hs') (hgood.2 s' hs') hrest

theorem run_invariant_all {step : σ → ι → Option σ} {Inv : σ → Prop}
    (hstep : ∀ s l s', Inv s → step s l = some s' → Inv s')
    {s t : σ} {ls : List ι} (hs : Inv s) (hrun : run step s ls = some t) : Inv t := by
  induction ls generalizing s with
  | nil =>
    obtain rfl : s = t := by simpa using hrun
    exact hs
  | cons l ls ih =>
    obtain ⟨s', hs', hrest⟩ := run_cons_eq_some.mp hrun
    exact ih (hstep s l s' hs hs') hrest

theorem allSteps_of_invariant {step : σ → ι → Option σ} {good good' : σ → ι → Prop} {Inv : σ → Prop}
    (hstep : ∀ s l s', good s l → Inv s → step s l = some s' → Inv s')
    (himp : ∀ s l, good s l → Inv s → good' s l)
    {s : σ} {ls : List ι} (hs : Inv s) (hgood : AllSteps step good s ls) :
    AllSteps step good' s ls := by
  induction ls generalizing s with
  | nil => trivial
  | cons l ls ih =>
    refine ⟨himp s l hgood.1 hs, ?_⟩
    intro s' hs'
    exact ih (hstep s l s' hgood.1 hs hs') (hgood.2 s' hs')

theorem allSteps_last {step : σ → ι → Option σ} {good : σ → ι → Prop} {s t : σ} {ls : List ι} {l : ι}
    (h : AllSteps step good s (ls ++ [l])) (hrun : run step s ls = some t) : good t l := by
  induction ls generalizing s with
  | nil =>
    obtain rfl : s = t := by simpa using hrun
    exact h.1
  | cons k ls ih =>
    obtain ⟨s', hs', hrest⟩ := run_cons_eq_some.mp hrun
    exact ih (h.2 s' hs') hrest

end Daloy.Runs
