import Mathlib.Tactic.Common

/-! # Calls that may throw

Nothing here mentions a program. A call reads and writes a world, and returns or throws; the world
keeps what was written before a throw.

* `attempt`: a `try` whose exception is handed on as a value.
* `runAll`, `firstSome`, `pipe`: lists of calls made one after the other, the first answer of a
  list, and a value that is passed through a list of functions.
-/

namespace Daloy.Effects
set_option autoImplicit false

variable {σ ε α β ρ ν : Type}

abbrev Call (σ ε α : Type) := EStateM ε σ α

/-! ## Exceptions as values -/

def attempt (c : Call σ ε α) : Call σ ε (Except ε α) := fun s =>
  match c s with
  | .ok a s => .ok (.ok a) s
  | .error e s => .ok (.error e) s

def settle : Except ε α → Call σ ε α
  | .ok a => pure a
  | .error e => throw e

/-! ## Lists of calls -/

def runAll (cs : List (Call σ ε Unit)) : Call σ ε Unit := cs.foldr (fun c k => c >>= fun _ => k) (pure ())

def orElse (c k : Call σ ε (Option ρ)) : Call σ ε (Option ρ) :=
  c >>= fun
    | some r => pure (some r)
    | none => k

def firstSome (cs : List (Call σ ε (Option ρ))) : Call σ ε (Option ρ) := cs.foldr orElse (pure none)

def pipe (fs : List (ν → Call σ ε ν)) : ν → Call σ ε ν := fs.foldr (fun f k v => f v >>= k) pure

theorem orElse_assoc (a b c : Call σ ε (Option ρ)) : orElse (orElse a b) c = orElse a (orElse b c) := by
  unfold orElse
  rw [bind_assoc]
  congr 1
  funext r
  cases r with
  | some r => rfl
  | none => rfl

theorem orElse_none (c : Call σ ε (Option ρ)) : orElse c (pure none) = c := by
  unfold orElse
  conv_rhs => rw [← bind_pure c]
  congr 1
  funext r
  cases r <;> rfl

end Daloy.Effects
