import Daloy.Foundations.Effects

/-! # Pre- and postconditions of calls

Nothing here mentions a program.

* `Triple P c Q E`: from a world with `P` the call `c` returns with `Q` or throws with `E`.
* `Triple.bind`: one call after the other.
-/

namespace Daloy.Effects
set_option autoImplicit false

variable {σ ε ε' α β ρ ν : Type}

def Triple (P : σ → Prop) (c : Call σ ε α) (Q : α → σ → Prop) (E : ε → σ → Prop) : Prop :=
  ∀ s, P s → match c s with
    | .ok a s' => Q a s'
    | .error e s' => E e s'

section Triple
variable {P : σ → Prop} {Q : α → σ → Prop} {R : β → σ → Prop} {E : ε → σ → Prop}

theorem Triple.bind {c : Call σ ε α} {f : α → Call σ ε β} (hc : Triple P c Q E)
    (hf : ∀ a, Triple (Q a) (f a) R E) : Triple P (c >>= f) R E := by
  intro s hs
  have hcall := hc s hs
  change match EStateM.bind c f s with
    | .ok a s' => R a s'
    | .error e s' => E e s'
  rw [EStateM.bind]
  cases hrun : c s with
  | ok a s' =>
    rw [hrun] at hcall
    exact hf a s' hcall
  | error e s' =>
    rw [hrun] at hcall
    exact hcall

end Triple

end Daloy.Effects
