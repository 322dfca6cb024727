import Mathlib.Tactic.Common

/-! # Incremental parsing

A parser that reads items off the front of a buffer, driven by a consumer, over input that arrives
in chunks. Nothing here mentions a program.

* `PrefixParser`: a parser whose verdict, once it is an item or a rejection, does not change when
  more input arrives behind it.
* `drained`: read items off a buffer until the parser wants more input, refuses, or the consumer
  stops.
* `Reaches`: the states on the way, after some accepted items.
* `drained_append_going`, `drained_append_halted`: draining two chunks one after the other is
  draining their concatenation.
-/

namespace Daloy.Parsing
set_option autoImplicit false

/-- What one attempt to read an item off the front of the buffer says. -/
inductive Verdict (ε β : Type)
  | incomplete
  | reject (e : ε)
  | item (b : β) (consumed : ℕ)

structure PrefixParser (α ε β : Type) where
  parse : List α → Verdict ε β
  parse_nil : parse [] = .incomplete
  consumed_pos : ∀ {xs b n}, parse xs = .item b n → 0 < n ∧ n ≤ xs.length
  item_append : ∀ {xs b n}, parse xs = .item b n → ∀ ys, parse (xs ++ ys) = .item b n
  reject_append : ∀ {xs e}, parse xs = .reject e → ∀ ys, parse (xs ++ ys) = .reject e

/-- What a consumer does with one item: go on, stop for good, or raise an exception that leaves
the loop (the state is as given, the rest of the buffer stays). -/
inductive Reaction (σ ω : Type)
  | next (s : σ) (out : List ω)
  | halt (s : σ) (out : List ω)
  | escape (s : σ)

/-- A consumer of items, and its last words when the parser refuses the input. -/
structure Consumer (β ε σ ω : Type) where
  receive : σ → β → Reaction σ ω
  refuse : σ → ε → List ω

inductive Status
  | going
  | halted
  | escaped
  deriving DecidableEq

structure Drained (α σ ω : Type) where
  state : σ
  pending : List α
  out : List ω
  status : Status

variable {α ε β σ ω : Type}

def Drained.after (out : List ω) (d : Drained α σ ω) : Drained α σ ω :=
  { d with out := out ++ d.out }

@[simp] theorem Drained.after_after (o o' : List ω) (d : Drained α σ ω) :
    (d.after o').after o = d.after (o ++ o') := by
  simp [Drained.after]

section Drain
variable (P : PrefixParser α ε β) (C : Consumer β ε σ ω)

/-- Read items off the buffer, at most `fuel` of them. -/
def drain : ℕ → σ → List α → Drained α σ ω
  | 0, s, xs => ⟨s, xs, [], .going⟩
  | fuel + 1, s, xs =>
    match P.parse xs with
    | .incomplete => ⟨s, xs, [], .going⟩
    | .reject e => ⟨s, [], C.refuse s e, .halted⟩
    | .item b n =>
      match C.receive s b with
      | .next s' out => (drain fuel s' (xs.drop n)).after out
      | .halt s' out => ⟨s', [], out, .halted⟩
      | .escape s' => ⟨s', xs.drop n, [], .escaped⟩

def drained (s : σ) (xs : List α) : Drained α σ ω := drain P C xs.length s xs

variable {P C}

theorem drain_incomplete {s : σ} {xs : List α} (hp : P.parse xs = .incomplete) (fuel : ℕ) :
    drain P C fuel s xs = ⟨s, xs, [], .going⟩ := by
  cases fuel with
  | zero => rfl
  | succ fuel => simp only [drain, hp]

theorem drain_reject {s : σ} {xs : List α} {e : ε} (hp : P.parse xs = .reject e) (fuel : ℕ) :
    drain P C (fuel + 1) s xs = ⟨s, [], C.refuse s e, .halted⟩ := by
  simp only [drain, hp]

theorem drain_next {s s' : σ} {xs : List α} {b : β} {n : ℕ} {out : List ω}
    (hp : P.parse xs = .item b n) (hr : C.receive s b = .next s' out) (fuel : ℕ) :
    drain P C (fuel + 1) s xs = (drain P C fuel s' (xs.drop n)).after out := by
  simp only [drain, hp, hr]

theorem drain_halt {s s' : σ} {xs : List α} {b : β} {n : ℕ} {out : List ω}
    (hp : P.parse xs = .item b n) (hr : C.receive s b = .halt s' out) (fuel : ℕ) :
    drain P C (fuel + 1) s xs = ⟨s', [], out, .halted⟩ := by
  simp only [drain, hp, hr]

theorem drain_escape {s s' : σ} {xs : List α} {b : β} {n : ℕ}
    (hp : P.parse xs = .item b n) (hr : C.receive s b = .escape s') (fuel : ℕ) :
    drain P C (fuel + 1) s xs = ⟨s', xs.drop n, [], .escaped⟩ := by
  simp only [drain, hp, hr]

theorem PrefixParser.ne_nil_of_verdict {xs : List α} (h : P.parse xs ≠ .incomplete) :
    0 < xs.length := by
  cases xs with
  | nil => exact absurd P.parse_nil h
  | cons x xs => simp

variable (P C)

theorem drain_fuel (m n : ℕ) (s : σ) (xs : List α) (hm : xs.length ≤ m) (hn : xs.length ≤ n) :
    drain P C m s xs = drain P C n s xs := by
  induction m generalizing n s xs with
  | zero =>
    obtain rfl : xs = [] := List.length_eq_zero_iff.mp (by omega)
    rw [drain_incomplete P.parse_nil, drain_incomplete P.parse_nil]
  | succ m ih =>
    cases hp : P.parse xs with
    | incomplete => rw [drain_incomplete hp, drain_incomplete hp]
    | reject e =>
      have hpos : 0 < xs.length := P.ne_nil_of_verdict (by simp [hp])
      obtain ⟨n, rfl⟩ : ∃ k, n = k + 1 := ⟨n - 1, by omega⟩
      rw [drain_reject hp, drain_reject hp]
    | item b k =>
      have hk := P.consumed_pos hp
      have hlen : (xs.drop k).length = xs.length - k := List.length_drop
      obtain ⟨n, rfl⟩ : ∃ k, n = k + 1 := ⟨n - 1, by omega⟩
      cases hr : C.receive s b with
      | next s' out =>
        rw [drain_next hp hr, drain_next hp hr, ih n s' (xs.drop k) (by omega) (by omega)]
      | halt s' out => rw [drain_halt hp hr, drain_halt hp hr]
      | escape s' => rw [drain_escape hp hr, drain_escape hp hr]

theorem drain_eq_drained (fuel : ℕ) (s : σ) (xs : List α) (h : xs.length ≤ fuel) :
    drain P C fuel s xs = drained P C s xs :=
  drain_fuel P C fuel xs.length s xs h (Nat.le_refl _)

variable {P C}

theorem drained_incomplete {s : σ} {xs : List α} (hp : P.parse xs = .incomplete) :
    drained P C s xs = ⟨s, xs, [], .going⟩ := drain_incomplete hp _

theorem drained_reject {s : σ} {xs : List α} {e : ε} (hp : P.parse xs = .reject e) :
    drained P C s xs = ⟨s, [], C.refuse s e, .halted⟩ := by
  rw [← drain_eq_drained P C (xs.length + 1) s xs (Nat.le_succ _), drain_reject hp]

theorem drained_next {s s' : σ} {xs : List α} {b : β} {n : ℕ} {out : List ω}
    (hp : P.parse xs = .item b n) (hr : C.receive s b = .next s' out) :
    drained P C s xs = (drained P C s' (xs.drop n)).after out := by
  rw [← drain_eq_drained P C (xs.length + 1) s xs (Nat.le_succ _), drain_next hp hr,
    drain_eq_drained P C xs.length s' (xs.drop n) (by simp)]

theorem drained_halt {s s' : σ} {xs : List α} {b : β} {n : ℕ} {out : List ω}
    (hp : P.parse xs = .item b n) (hr : C.receive s b = .halt s' out) :
    drained P C s xs = ⟨s', [], out, .halted⟩ := by
  rw [← drain_eq_drained P C (xs.length + 1) s xs (Nat.le_succ _), drain_halt hp hr]

theorem drained_escape {s s' : σ} {xs : List α} {b : β} {n : ℕ}
    (hp : P.parse xs = .item b n) (hr : C.receive s b = .escape s') :
    drained P C s xs = ⟨s', xs.drop n, [], .escaped⟩ := by
  rw [← drain_eq_drained P C (xs.length + 1) s xs (Nat.le_succ _), drain_escape hp hr]

variable (P C)

/-! ## The states on the way -/

/-- `Reaches s xs s' xs' out`: some items at the front of `xs` are accepted one after the other,
giving `out` and leaving the state `s'` and the buffer `xs'`. -/
inductive Reaches : σ → List α → σ → List α → List ω → Prop
  | refl (s : σ) (xs : List α) : Reaches s xs s xs []
  | step {s s₁ s₂ : σ} {xs xs₂ : List α} {b : β} {n : ℕ} {out out₂ : List ω}
      (hp : P.parse xs = .item b n) (hr : C.receive s b = .next s₁ out)
      (rest : Reaches s₁ (xs.drop n) s₂ xs₂ out₂) : Reaches s xs s₂ xs₂ (out ++ out₂)

/-- No further item can be accepted: the parser wants more input or refuses, or the consumer
stops at the item in front. -/
def Stuck (s : σ) (xs : List α) : Prop :=
  ∀ b n, P.parse xs = .item b n → ∀ s' out, C.receive s b ≠ .next s' out

variable {P C}

theorem Reaches.drained_eq {s s' : σ} {xs xs' : List α} {out : List ω}
    (h : Reaches P C s xs s' xs' out) : drained P C s xs = (drained P C s' xs').after out := by
  induction h with
  | refl s xs => rfl
  | step hp hr rest ih => rw [drained_next hp hr, ih, Drained.after_after]

theorem Reaches.suffix {s s' : σ} {xs xs' : List α} {out : List ω}
    (h : Reaches P C s xs s' xs' out) : xs' <:+ xs := by
  induction h with
  | refl s xs => exact List.suffix_refl xs
  | step hp hr rest ih => exact ih.trans (List.drop_suffix _ _)

theorem Reaches.append {s s' : σ} {xs xs' : List α} {out : List ω}
    (h : Reaches P C s xs s' xs' out) (ys : List α) :
    Reaches P C s (xs ++ ys) s' (xs' ++ ys) out := by
  induction h with
  | refl s xs => exact .refl s _
  | step hp hr rest ih =>
    refine .step (P.item_append hp ys) hr ?_
    rwa [List.drop_append_of_le_length (P.consumed_pos hp).2]

theorem Reaches.trans {s s' s'' : σ} {xs xs' xs'' : List α} {out out' : List ω}
    (h : Reaches P C s xs s' xs' out) (h' : Reaches P C s' xs' s'' xs'' out') :
    Reaches P C s xs s'' xs'' (out ++ out') := by
  induction h with
  | refl s xs => exact h'
  | step hp hr rest ih =>
    rw [List.append_assoc]
    exact .step hp hr (ih h')

variable (P C)

theorem exists_stuck (s : σ) (xs : List α) :
    ∃ s' xs' out, Reaches P C s xs s' xs' out ∧ Stuck P C s' xs' := by
  induction hn : xs.length using Nat.strongRecOn generalizing s xs with
  | _ n ih =>
    by_cases hstuck : Stuck P C s xs
    · exact ⟨s, xs, [], .refl s xs, hstuck⟩
    · simp only [Stuck, not_forall, not_not] at hstuck
      obtain ⟨b, k, hp, s₁, out, hr⟩ := hstuck
      have hk := P.consumed_pos hp
      obtain ⟨s', xs', out', hreach, hs'⟩ :=
        ih (xs.drop k).length (by rw [List.length_drop]; omega) s₁ (xs.drop k) rfl
      exact ⟨s', xs', out ++ out', .step hp hr hreach, hs'⟩

/-! ## Chunks -/

theorem reaches_of_going {s : σ} {xs : List α} (h : (drained P C s xs).status = .going) :
    Reaches P C s xs (drained P C s xs).state (drained P C s xs).pending (drained P C s xs).out ∧
      P.parse (drained P C s xs).pending = .incomplete := by
  obtain ⟨s', xs', out, hreach, hstuck⟩ := exists_stuck P C s xs
  rw [hreach.drained_eq] at h ⊢
  cases hp : P.parse xs' with
  | incomplete =>
    rw [drained_incomplete hp]
    exact ⟨by simpa [Drained.after] using hreach, hp⟩
  | reject e => simp [drained_reject hp, Drained.after] at h
  | item b n =>
    cases hr : C.receive s' b with
    | next s₁ o => exact absurd hr (hstuck b n hp s₁ o)
    | halt s₁ o => simp [drained_halt hp hr, Drained.after] at h
    | escape s₁ => simp [drained_escape hp hr, Drained.after] at h

theorem drained_append_going {s : σ} {xs : List α} (ys : List α)
    (h : (drained P C s xs).status = .going) :
    drained P C s (xs ++ ys) =
      (drained P C (drained P C s xs).state ((drained P C s xs).pending ++ ys)).after
        (drained P C s xs).out :=
  ((reaches_of_going P C h).1.append ys).drained_eq

theorem drained_append_halted {s : σ} {xs : List α} (ys : List α)
    (h : (drained P C s xs).status = .halted) : drained P C s (xs ++ ys) = drained P C s xs := by
  obtain ⟨s', xs', out, hreach, hstuck⟩ := exists_stuck P C s xs
  rw [hreach.drained_eq] at h ⊢
  rw [(hreach.append ys).drained_eq]
  cases hp : P.parse xs' with
  | incomplete => simp [drained_incomplete hp, Drained.after] at h
  | reject e => rw [drained_reject hp, drained_reject (P.reject_append hp ys)]
  | item b n =>
    cases hr : C.receive s' b with
    | next s₁ o => exact absurd hr (hstuck b n hp s₁ o)
    | halt s₁ o => rw [drained_halt hp hr, drained_halt (P.item_append hp ys) hr]
    | escape s₁ => simp [drained_escape hp hr, Drained.after] at h

theorem drained_append_escaped {s : σ} {xs : List α} (ys : List α)
    (h : (drained P C s xs).status = .escaped) : (drained P C s (xs ++ ys)).status = .escaped := by
  obtain ⟨s', xs', out, hreach, hstuck⟩ := exists_stuck P C s xs
  rw [hreach.drained_eq] at h
  rw [(hreach.append ys).drained_eq]
  cases hp : P.parse xs' with
  | incomplete => simp [drained_incomplete hp, Drained.after] at h
  | reject e => simp [drained_reject hp, Drained.after] at h
  | item b n =>
    cases hr : C.receive s' b with
    | next s₁ o => exact absurd hr (hstuck b n hp s₁ o)
    | halt s₁ o => simp [drained_halt hp hr, Drained.after] at h
    | escape s₁ =>
      rw [drained_escape (P.item_append hp ys) hr]
      rfl

end Drain

end Daloy.Parsing
